import PredictiveParsing.Proofs.LetterSets

/-!
# What the check of a pattern finds

A pattern passes the check if and only if none of the patterns that it consists of has a fault of
its own. Every pattern that is well formed passes: no range runs backwards, every class has a
character, and repetitions keep their bounds. What passes is well formed but for classes that are
negated, of which the check does not ask whether they leave a character. Main statement:
`wellFormed_iff`.
-/
namespace PredictiveParsing.Pattern

def parts : Pattern → List Pattern
  | seq items | alt items => items
  | star body | plus body | opt body | rep body _ _ => [body]
  | literal _ | charClass _ | ref _ => []

theorem sizeOf_lt_of_mem_parts {p q : Pattern} (h : q ∈ p.parts) : sizeOf q < sizeOf p := by
  cases p with
  | seq items | alt items =>
    have hlt : sizeOf q < sizeOf items := List.sizeOf_lt_of_mem h
    simp only [seq.sizeOf_spec, alt.sizeOf_spec]
    omega
  | star body | plus body | opt body | rep body min max =>
    obtain rfl := List.mem_singleton.1 h
    simp only [star.sizeOf_spec, plus.sizeOf_spec, opt.sizeOf_spec, rep.sizeOf_spec]
    omega
  | literal text | charClass cls | ref name => exact absurd h List.not_mem_nil

theorem parts_induction {motive : Pattern → Prop}
    (step : ∀ p, (∀ q ∈ p.parts, motive q) → motive p) (p : Pattern) : motive p :=
  step p fun q _ => parts_induction step q
termination_by sizeOf p
decreasing_by exact sizeOf_lt_of_mem_parts ‹_›

theorem referencesOf_eq (ps : List Pattern) : referencesOf ps = ps.flatMap references := by
  induction ps with
  | nil => rfl
  | cons p ps ih => rw [referencesOf, ih, List.flatMap_cons]

inductive Contains : Pattern → Pattern → Prop
  | refl (p : Pattern) : Contains p p
  | part {p q r : Pattern} (hq : q ∈ p.parts) (h : Contains q r) : Contains p r

def ownFault? : Pattern → Option PatternError
  | charClass cls => classFault? cls
  | rep _ min max => boundsFault? min max
  | _ => none

theorem firstFault?_eq_none_iff {ps : List Pattern} :
    firstFault? ps = none ↔ ∀ p ∈ ps, p.fault? = none := by
  induction ps with
  | nil => simp [firstFault?]
  | cons p ps ih =>
    rw [firstFault?, List.forall_mem_cons, ← ih]
    cases p.fault? <;> simp

theorem fault?_eq_none_iff_parts {p : Pattern} :
    p.fault? = none ↔ p.ownFault? = none ∧ ∀ q ∈ p.parts, q.fault? = none := by
  cases p with
  | seq items | alt items => simp [fault?, ownFault?, parts, firstFault?_eq_none_iff]
  | rep body min max =>
    rw [fault?]
    cases h : boundsFault? min max <;> simp [ownFault?, parts, h]
  | star body | plus body | opt body | literal text | charClass cls | ref name =>
    simp [fault?, ownFault?, parts]

theorem fault?_eq_none_iff {p : Pattern} :
    p.fault? = none ↔ ∀ q, p.Contains q → q.ownFault? = none := by
  induction p using parts_induction with
  | step p ih =>
    rw [fault?_eq_none_iff_parts]
    constructor
    · rintro ⟨hown, hparts⟩ r hr
      cases hr with
      | refl => exact hown
      | part hq hr => exact (ih _ hq).1 (hparts _ hq) r hr
    · intro h
      exact ⟨h p (.refl p), fun q hq => (ih q hq).2 fun r hr => h r (.part hq hr)⟩

theorem invertedRange?_eq_none_iff {items : List ClassItem} :
    invertedRange? items = none ↔ ∀ lo hi, .range lo hi ∈ items → lo ≤ hi := by
  induction items with
  | nil => simp [invertedRange?]
  | cons item items ih =>
    cases item with
    | char c => simp [invertedRange?, ih]
    | range lo hi =>
      rw [invertedRange?]
      split
      · next hlt => simpa using ⟨lo, hi, .inl ⟨rfl, rfl⟩, hlt⟩
      · next hle =>
        rw [ih]
        constructor
        · intro h lo' hi' hmem
          rcases List.mem_cons.1 hmem with heq | hmem
          · obtain ⟨rfl, rfl⟩ := ClassItem.range.inj heq
            exact Char.not_lt.1 hle
          · exact h lo' hi' hmem
        · exact fun h lo' hi' hmem => h lo' hi' (List.mem_cons_of_mem _ hmem)

theorem classFault?_eq_none_iff {cls : CharClass} :
    classFault? cls = none ↔
      (∀ lo hi, .range lo hi ∈ cls.items → lo ≤ hi) ∧ (cls.negated = true ∨ cls.items ≠ []) := by
  rw [← invertedRange?_eq_none_iff, classFault?]
  cases hrange : invertedRange? cls.items with
  | some e => simp
  | none => cases hnegated : cls.negated <;> simp

theorem boundsFault?_eq_none_iff {min : Nat} {max : Option Nat} :
    boundsFault? min max = none ↔
      (∀ m ∈ max, min ≤ m) ∧ min ≤ repeatLimit ∧ ∀ m ∈ max, m ≤ repeatLimit := by
  have hlimit : repeatLimit < Nat.max (max.getD min) min ↔
      ¬ (min ≤ repeatLimit ∧ ∀ m ∈ max, m ≤ repeatLimit) := by
    cases max with
    | none => simp
    | some m =>
      simp only [Option.getD_some, lt_sup_iff, Option.mem_def, Option.some.injEq, forall_eq',
        not_and, not_le]
      omega
  simp only [boundsFault?, hlimit]
  split
  · next hover => simp only [reduceCtorEq, not_and_of_not_right _ hover]
  · next hwithin =>
    rw [not_not] at hwithin
    rw [and_iff_left hwithin]
    cases max with
    | none => simp
    | some m => simp

theorem exists_has_of_items {cls : CharClass} (hnegated : cls.negated = false)
    (hranges : ∀ lo hi, .range lo hi ∈ cls.items → lo ≤ hi) (h : cls.items ≠ []) :
    ∃ c, cls.Has c := by
  obtain ⟨item, hitem⟩ := List.exists_mem_of_ne_nil _ h
  simp only [CharClass.Has, hnegated, Bool.false_eq_true, if_false]
  cases item with
  | char c => exact ⟨c, _, hitem, rfl⟩
  | range lo hi => exact ⟨lo, _, hitem, Char.le_refl lo, hranges lo hi hitem⟩

theorem items_ne_nil_of_has {cls : CharClass} (hnegated : cls.negated = false)
    (h : ∃ c, cls.Has c) : cls.items ≠ [] := by
  obtain ⟨c, hc⟩ := h
  simp only [CharClass.Has, hnegated, Bool.false_eq_true, if_false] at hc
  obtain ⟨item, hitem, -⟩ := hc
  exact List.ne_nil_of_mem hitem

/-- No range of a class runs backwards, every class has a character, and every repetition has its
bounds in order and within the limit, anywhere in the pattern. -/
structure WellFormed (p : Pattern) : Prop where
  ranges : ∀ cls, p.Contains (.charClass cls) → ∀ lo hi, .range lo hi ∈ cls.items → lo ≤ hi
  inhabited : ∀ cls, p.Contains (.charClass cls) → ∃ c, cls.Has c
  ordered : ∀ body min max, p.Contains (.rep body min (some max)) → min ≤ max
  limited : ∀ body min max, p.Contains (.rep body min max) →
    min ≤ repeatLimit ∧ ∀ m ∈ max, m ≤ repeatLimit

theorem WellFormed.fault?_eq_none {p : Pattern} (h : p.WellFormed) : p.fault? = none := by
  rw [fault?_eq_none_iff]
  intro q hq
  cases q with
  | charClass cls =>
    refine classFault?_eq_none_iff.2 ⟨h.ranges cls hq, ?_⟩
    cases hnegated : cls.negated with
    | true => exact .inl rfl
    | false => exact .inr (items_ne_nil_of_has hnegated (h.inhabited cls hq))
  | rep body min max =>
    refine boundsFault?_eq_none_iff.2 ⟨fun m hm => ?_, h.limited body min max hq⟩
    subst hm
    exact h.ordered body min m hq
  | literal text | seq items | alt items | star body | plus body | opt body | ref name => rfl

/-- The well-formed patterns are those that pass the check and in which every class that is negated
leaves a character. -/
theorem wellFormed_iff (p : Pattern) :
    p.WellFormed ↔ p.fault? = none ∧
      ∀ cls, p.Contains (.charClass cls) → cls.negated = true → ∃ c, cls.Has c := by
  constructor
  · exact fun h => ⟨h.fault?_eq_none, fun cls hcls _ => h.inhabited cls hcls⟩
  · rintro ⟨hfault, hnegations⟩
    rw [fault?_eq_none_iff] at hfault
    have hclass (cls : CharClass) (hcls : p.Contains (.charClass cls)) :=
      classFault?_eq_none_iff.1 (hfault _ hcls)
    have hbounds (body : Pattern) (min : Nat) (max : Option Nat)
        (hrep : p.Contains (.rep body min max)) :=
      boundsFault?_eq_none_iff.1 (hfault _ hrep)
    refine ⟨fun cls hcls => (hclass cls hcls).1, fun cls hcls => ?_,
      fun body min max hrep => (hbounds body min _ hrep).1 max rfl,
      fun body min max hrep => (hbounds body min max hrep).2⟩
    obtain ⟨hranges, hitems⟩ := hclass cls hcls
    cases hnegated : cls.negated with
    | true => exact hnegations cls hcls hnegated
    | false =>
      exact exists_has_of_items hnegated hranges (hitems.resolve_left (by simp [hnegated]))

def outsideAll : CharClass := ⟨[.range (Char.ofNat 0) (Char.ofNat 0x10FFFF)], true⟩

theorem not_has_outsideAll (c : Char) : ¬ outsideAll.Has c := by
  have hrange : Char.ofNat 0 ≤ c ∧ c ≤ Char.ofNat 0x10FFFF := by
    have hle := toNat_le_maxCodePoint c
    exact ⟨Nat.zero_le _, hle⟩
  simp [outsideAll, CharClass.Has, ClassItem.Has, hrange]

/-- The check passes a class that has no character. -/
theorem outsideAll_passes :
    ¬ ((charClass outsideAll).fault? = none ↔ (charClass outsideAll).WellFormed) := by
  intro h
  obtain ⟨c, hc⟩ := (h.1 rfl).inhabited outsideAll (.refl _)
  exact not_has_outsideAll c hc

end PredictiveParsing.Pattern
