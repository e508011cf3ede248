import Mathlib.Data.List.Pairwise
import Mathlib.Tactic.MkIffOfInductiveProp
import PredictiveParsing.Proofs.CharSets
import PredictiveParsing.Text.Case

/-!
# The case mappings

The runs of a mapping move characters to other characters and do not overlap, so each character has
one image. The case variants are the pairs of a character and another that is its image under one of
the mappings. Main statement: `tabulates_caseVariants`.
-/
namespace PredictiveParsing

namespace ShiftRun

@[mk_iff]
structure Valid (r : ShiftRun) : Prop where
  ordered : r.first ≤ r.last
  step_pos : 0 < r.step
  shift_ne : r.shift ≠ 0
  source : r.last < 0xD800 ∨ 0xDFFF < r.first ∧ r.last < 0x110000
  target : 0 ≤ r.first + r.shift ∧
    (r.last + r.shift < 0xD800 ∨ 0xDFFF < r.first + r.shift ∧ r.last + r.shift < 0x110000)

instance (r : ShiftRun) : Decidable r.Valid := decidable_of_iff _ (valid_iff r).symm

variable {r : ShiftRun} {a c : Nat}

theorem image?_eq_some_iff : r.image? a = some c ↔
    r.first ≤ a ∧ a ≤ r.last ∧ (a - r.first) % r.step = 0 ∧ (a + r.shift).toNat = c := by
  simp [image?, and_assoc]

theorem Valid.mem_pairs (h : r.Valid) : (a, c) ∈ r.pairs ↔ r.image? a = some c := by
  have hordered := h.ordered
  simp only [pairs, List.mem_map, List.mem_range, Nat.lt_succ_iff, Prod.mk.injEq,
    Nat.le_div_iff_mul_le h.step_pos, image?_eq_some_iff]
  constructor
  · intro hpair
    obtain ⟨i, hi, rfl, himage⟩ := hpair
    rw [Nat.add_sub_cancel_left, Nat.mul_mod_left]
    exact ⟨by omega, by omega, rfl, himage⟩
  · intro hpair
    obtain ⟨hfirst, hlast, hstep, himage⟩ := hpair
    have hplace := Nat.div_mul_cancel (Nat.dvd_of_mod_eq_zero hstep)
    refine ⟨(a - r.first) / r.step, by omega, by omega, ?_⟩
    rwa [hplace, Nat.add_sub_cancel' hfirst]

theorem Valid.chars (h : r.Valid) (himage : r.image? a = some c) :
    a.isValidChar ∧ c.isValidChar ∧ c ≠ a := by
  rw [image?_eq_some_iff] at himage
  have hsource := h.source
  have htarget := h.target
  have hshift := h.shift_ne
  unfold Nat.isValidChar
  omega

end ShiftRun

structure IsMapping (runs : List ShiftRun) : Prop where
  valid : ∀ r ∈ runs, r.Valid
  ascending : runs.IsChain fun r s => r.last < s.first

theorem IsMapping.pairwise {runs : List ShiftRun} (h : IsMapping runs) :
    runs.Pairwise fun r s => r.last < s.first := by
  obtain ⟨hvalid, hascending⟩ := h
  induction hascending with
  | nil => exact .nil
  | singleton r => exact List.pairwise_singleton _ r
  | cons_cons hlt hchain ih =>
    have hrest := ih fun r hr => hvalid r (List.mem_cons_of_mem _ hr)
    refine List.pairwise_cons.2 ⟨List.forall_mem_cons.2 ⟨hlt, fun r hr => ?_⟩, hrest⟩
    have hnext := (List.pairwise_cons.1 hrest).1 r hr
    have hordered := (hvalid _ (List.mem_cons_of_mem _ List.mem_cons_self)).ordered
    omega

theorem findSome?_image?_eq_some_iff {runs : List ShiftRun}
    (h : runs.Pairwise fun r s => r.last < s.first) {a c : Nat} :
    runs.findSome? (·.image? a) = some c ↔ ∃ r ∈ runs, r.image? a = some c := by
  induction runs with
  | nil => simp
  | cons r runs ih =>
    obtain ⟨hr, hruns⟩ := List.pairwise_cons.1 h
    rw [List.findSome?_cons, List.exists_mem_cons_iff, ← ih hruns]
    cases himage : r.image? a with
    | none => simp
    | some d =>
      -- the runs after `r` begin above `a`
      have hlast := (ShiftRun.image?_eq_some_iff.1 himage).2.1
      have hrest : ¬ runs.findSome? (·.image? a) = some c := by
        rw [ih hruns]
        intro hexists
        obtain ⟨s, hs, hsome⟩ := hexists
        have hfirst := (ShiftRun.image?_eq_some_iff.1 hsome).1
        have hlt := hr s hs
        omega
      simp [hrest]

theorem IsMapping.mem_flatMap_pairs {runs : List ShiftRun} (h : IsMapping runs) {a c : Nat} :
    (a, c) ∈ runs.flatMap ShiftRun.pairs ↔ runs.findSome? (·.image? a) = some c := by
  rw [findSome?_image?_eq_some_iff h.pairwise, List.mem_flatMap]
  exact exists_congr fun r => and_congr_right fun hr => (h.valid r hr).mem_pairs

theorem IsMapping.chars {runs : List ShiftRun} (h : IsMapping runs) {a c : Nat}
    (hpair : (a, c) ∈ runs.flatMap ShiftRun.pairs) : a.isValidChar ∧ c.isValidChar ∧ c ≠ a := by
  obtain ⟨r, hr, hpair⟩ := List.mem_flatMap.1 hpair
  exact (h.valid r hr).chars ((h.valid r hr).mem_pairs.1 hpair)

theorem IsMapping.imageUnder_eq_iff {runs : List ShiftRun} (h : IsMapping runs) {x y : Char}
    (hxy : y ≠ x) :
    imageUnder runs x = [y] ↔ (x.toNat, y.toNat) ∈ runs.flatMap ShiftRun.pairs := by
  rw [h.mem_flatMap_pairs, imageUnder]
  cases himage : runs.findSome? (·.image? x.toNat) with
  | none => simpa using hxy.symm
  | some d =>
    obtain ⟨-, hd, -⟩ := h.chars (h.mem_flatMap_pairs.2 himage)
    simp only [List.cons.injEq, and_true, Option.some.injEq]
    constructor
    · rintro rfl
      exact (toNat_charOfNat hd).symm
    · rintro rfl
      exact Char.ofNat_toNat y

/-- Each pair has the code points of a character and of its image under one of the mappings, and
where such an image is one other character the pair is there. -/
def Tabulates (pairs : List (Nat × Nat)) (lower upper : Char → List Char) : Prop :=
  ∀ a c, (a, c) ∈ pairs ↔
    ∃ x y : Char, x.toNat = a ∧ y.toNat = c ∧ y ≠ x ∧ (lower x = [y] ∨ upper x = [y])

theorem IsMapping.mem_pairs_iff {runs : List ShiftRun} (h : IsMapping runs) {a c : Nat} :
    (a, c) ∈ runs.flatMap ShiftRun.pairs ↔
      ∃ x y : Char, x.toNat = a ∧ y.toNat = c ∧ y ≠ x ∧ imageUnder runs x = [y] := by
  constructor
  · intro hpair
    obtain ⟨ha, hc, hne⟩ := h.chars hpair
    have hx := toNat_charOfNat ha
    have hy := toNat_charOfNat hc
    have hxy : Char.ofNat c ≠ Char.ofNat a := fun heq => hne (by rw [← hy, heq, hx])
    refine ⟨_, _, hx, hy, hxy, (h.imageUnder_eq_iff hxy).2 ?_⟩
    rwa [hx, hy]
  · rintro ⟨x, y, rfl, rfl, hxy, himage⟩
    exact (h.imageUnder_eq_iff hxy).1 himage

theorem isMapping_lowerCaseRuns : IsMapping lowerCaseRuns :=
  ⟨by decide +kernel, by decide +kernel⟩

theorem isMapping_upperCaseRuns : IsMapping upperCaseRuns :=
  ⟨by decide +kernel, by decide +kernel⟩

theorem tabulates_caseVariants : Tabulates caseVariants lowerCase upperCase := by
  intro a c
  rw [caseVariants, List.flatMap_append, List.mem_append, isMapping_lowerCaseRuns.mem_pairs_iff,
    isMapping_upperCaseRuns.mem_pairs_iff]
  simp only [← exists_or, ← and_or_left]
  exact Iff.rfl

theorem caseRuns_le_casedLimit : ∀ r ∈ lowerCaseRuns ++ upperCaseRuns,
    r.last ≤ CharSet.casedLimit := by
  decide +kernel

theorem le_casedLimit_of_mem_caseVariants {a c : Nat} (h : (a, c) ∈ caseVariants) :
    a ≤ CharSet.casedLimit := by
  obtain ⟨r, hr, hpair⟩ := List.mem_flatMap.1 h
  have hvalid : r.Valid := by
    rcases List.mem_append.1 hr with hr | hr
    · exact isMapping_lowerCaseRuns.valid r hr
    · exact isMapping_upperCaseRuns.valid r hr
  have hlast := (ShiftRun.image?_eq_some_iff.1 (hvalid.mem_pairs.1 hpair)).2.1
  exact Nat.le_trans hlast (caseRuns_le_casedLimit r hr)

end PredictiveParsing
