import Mathlib.Order.Bounds.Basic
import PredictiveParsing.Proofs.Prediction

/-!
# The search finds the least depths

The search gives each way out of a choice its own depth, and compares sets of different depths on
the way. Sets that overlap do so at every smaller depth as well, since cutting the members keeps one
the beginning of the other. So a way that is apart from the others once is apart for good, and what
the search finds is what comparing all ways at one depth after another would find. Main statement:
`planChoice_uniform`.
-/
namespace PredictiveParsing

namespace SequenceSet

variable {a b a' b' : SequenceSet} {x y : List Nat}

/-- A member of one set begins a member of the other. -/
def Overlaps (a b : SequenceSet) : Prop := ∃ x ∈ a, ∃ y ∈ b, x <+: y ∨ y <+: x

theorem Overlaps.symm (h : a.Overlaps b) : b.Overlaps a := by
  obtain ⟨x, hx, y, hy, hxy⟩ := h
  exact ⟨y, hy, x, hx, hxy.symm⟩

theorem isSome_sharedStart?_iff : (sharedStart? x y).isSome ↔ x <+: y ∨ y <+: x := by
  constructor
  · intro h
    have hcut : x.take (min x.length y.length) = y.take (min x.length y.length) := by
      by_contra hne
      simp [sharedStart?, hne] at h
    by_cases hle : x.length ≤ y.length
    · left
      rw [Nat.min_eq_left hle, List.take_length] at hcut
      exact List.prefix_iff_eq_take.2 hcut
    · right
      rw [Nat.min_eq_right (Nat.le_of_not_le hle), List.take_length] at hcut
      exact List.prefix_iff_eq_take.2 hcut.symm
  · intro h
    rcases h with h | h
    · exact isSome_sharedStart? h (List.prefix_refl y)
    · exact isSome_sharedStart? (List.prefix_refl x) h

theorem isSome_overlap?_iff : (a.overlap? b).isSome ↔ a.Overlaps b := by
  simp only [overlap?, List.findSome?_isSome_iff, isSome_sharedStart?_iff]
  rfl

theorem Overlaps.cut {d : Nat} (h : a.Overlaps b) (ha : ∀ x ∈ a, x.take d ∈ a')
    (hb : ∀ y ∈ b, y.take d ∈ b') : a'.Overlaps b' := by
  obtain ⟨x, hx, y, hy, hxy⟩ := h
  refine ⟨x.take d, ha x hx, y.take d, hb y hy, ?_⟩
  exact hxy.imp (fun h => h.take d) (fun h => h.take d)

end SequenceSet

namespace GrammarSets

variable {s : GrammarSets} {choice : Nat} {ways : List (Option Nat)} {i k n : Nat}

theorem take_mem_selecting {way : Option Nat} {x : List Nat} (hle : n ≤ k)
    (hx : x ∈ s.selecting choice way k) : x.take n ∈ s.selecting choice way n := by
  cases way with
  | some alt =>
    apply SequenceSet.mem_concat_iff.2
    obtain ⟨u, hu, hcut⟩ := SequenceSet.mem_concat_iff.1 hx
    refine ⟨u, hu, ?_⟩
    rcases hcut with ⟨hlen, rfl⟩ | ⟨v, hv, rfl⟩
    · left
      exact ⟨Nat.le_trans hle hlen, by rw [List.take_take, Nat.min_eq_left hle]⟩
    · right
      exact ⟨v, hv, by rw [List.take_take, Nat.min_eq_left hle]⟩
  | none =>
    apply SequenceSet.mem_truncate.2
    obtain ⟨u, hu, rfl⟩ := SequenceSet.mem_truncate.1 hx
    exact ⟨u, hu, by rw [List.take_take, Nat.min_eq_left hle]⟩

/-- With `k` tokens for every way out of `choice`, the way at `i` shares no upcoming text with
another. -/
def ApartAt (s : GrammarSets) (choice : Nat) (ways : List (Option Nat)) (i k : Nat) : Prop :=
  ∀ way j other, ways[i]? = some way → ways[j]? = some other → j ≠ i →
    ¬ (s.selecting choice way k).Overlaps (s.selecting choice other k)

theorem ApartAt.mono (h : s.ApartAt choice ways i n) (hle : n ≤ k) : s.ApartAt choice ways i k := by
  intro way j other hway hother hne hoverlap
  apply h way j other hway hother hne
  exact hoverlap.cut (fun x hx => take_mem_selecting hle hx) (fun y hy => take_mem_selecting hle hy)

end GrammarSets

namespace ChoiceSearch

variable {s : GrammarSets} {ways : List (Option Nat)} {choice i k : Nat} {c : ChoiceSearch}
  {a : Alternative}

theorem Told.mono {bound : Nat} (h : Told s choice ways k c) (hle : k ≤ bound) :
    Told s choice ways bound c := by
  refine ⟨h.choice_eq, h.length_eq, ?_⟩
  intro i way hway
  obtain ⟨d, hd, hdk, heq⟩ := h.told i way hway
  exact ⟨d, hd, Nat.le_trans hdk hle, heq⟩

theorem Told.exists_atDepth (h : Told s choice ways k c) (ha : c.alternatives[i]? = some a) :
    ∃ way d, ways[i]? = some way ∧ a = .atDepth s choice way d ∧ 1 ≤ d ∧ d ≤ k := by
  have hi : i < ways.length := by
    rw [← h.length_eq]
    exact (List.getElem?_eq_some_iff.1 ha).1
  have hway : ways[i]? = some ways[i] := List.getElem?_eq_getElem hi
  obtain ⟨d, hd, hle, heq⟩ := h.told i _ hway
  rw [ha] at heq
  exact ⟨_, d, hway, Option.some.inj heq, hd, hle⟩

/-- What is known of a search that has come to depth `k`: no way could have done with less than it
was given, and the ways that were given less than `k` are apart from the others. -/
structure Settling (s : GrammarSets) (choice : Nat) (ways : List (Option Nat)) (k : Nat)
    (c : ChoiceSearch) : Prop extends Told s choice ways k c where
  reached : k = 1 ∨ ∃ a ∈ c.alternatives, a.depth = k
  needed : ∀ i a, c.alternatives[i]? = some a → ∀ n < a.depth, 1 ≤ n →
    ¬ s.ApartAt choice ways i n
  apart : ∀ i a, c.alternatives[i]? = some a → a.depth < k → s.ApartAt choice ways i a.depth

theorem Settling.depth_eq (h : Settling s choice ways k c) {j : Nat} {b : Alternative}
    (ha : c.alternatives[i]? = some a) (hb : c.alternatives[j]? = some b) (hne : j ≠ i)
    (hoverlap : a.set.Overlaps b.set) : a.depth = k := by
  obtain ⟨way, d, hway, rfl, -, hd⟩ := h.exists_atDepth ha
  obtain ⟨other, e, hother, rfl, -, he⟩ := h.exists_atDepth hb
  have hcut (n : Nat) (hn : n ≤ d) (hn' : n ≤ e) :
      (s.selecting choice way n).Overlaps (s.selecting choice other n) :=
    hoverlap.cut (fun x hx => GrammarSets.take_mem_selecting hn hx)
      (fun y hy => GrammarSets.take_mem_selecting hn' hy)
  by_contra hlt
  have hdk : d < k := Nat.lt_of_le_of_ne hd hlt
  -- the way that was settled first is apart at its depth, where both can be cut
  by_cases hle : d ≤ e
  · exact h.apart i _ ha hdk way j other hway hother hne (hcut d (Nat.le_refl d) hle)
  · have hed : e ≤ d := Nat.le_of_not_le hle
    have hek : e < k := by omega
    exact h.apart j _ hb hek other i way hother hway hne.symm (hcut e hed (Nat.le_refl e)).symm

theorem Told.exists_alternative (h : Told s choice ways k c) {way : Option Nat}
    (hway : ways[i]? = some way) : ∃ a, c.alternatives[i]? = some a := by
  obtain ⟨d, -, -, ha⟩ := h.told i way hway
  exact ⟨_, ha⟩

theorem Told.set_eq (h : Told s choice ways k c) {way : Option Nat} (hway : ways[i]? = some way)
    (ha : c.alternatives[i]? = some a) : a.set = s.selecting choice way a.depth := by
  obtain ⟨d, -, -, heq⟩ := h.told i way hway
  obtain rfl := Option.some.inj (ha.symm.trans heq)
  rfl

theorem Settling.depth_eq_of_overlaps (h : Settling s choice ways k c) {way other : Option Nat}
    {j : Nat} (hway : ways[i]? = some way) (hother : ways[j]? = some other) (hne : j ≠ i)
    (hoverlap : (s.selecting choice way k).Overlaps (s.selecting choice other k))
    (ha : c.alternatives[i]? = some a) : a.depth = k := by
  obtain ⟨_, d, -, rfl, -, hle⟩ := h.exists_atDepth ha
  by_contra hlt
  have hapart := h.apart i _ ha (Nat.lt_of_le_of_ne hle hlt)
  exact hapart.mono hle way j other hway hother hne hoverlap

theorem isGrowing_iff (h : Told s choice ways k c) (ha : c.alternatives[i]? = some a) :
    c.isGrowing a i = true ↔
      ∃ j b, c.alternatives[j]? = some b ∧ j ≠ i ∧ a.set.Overlaps b.set := by
  have hexplicit : a.isExplicit = false := by
    obtain ⟨way, d, -, rfl, -⟩ := h.exists_atDepth ha
    rfl
  simp only [isGrowing, hexplicit, h.checked_eq, Bool.not_false, Bool.true_and, List.any_eq_true,
    Bool.and_eq_true, bne_iff_ne, Alternative.meets, SequenceSet.isSome_overlap?_iff, Prod.exists,
    List.mem_zipIdx_iff_getElem?]
  constructor
  · rintro ⟨b, j, hb, hne, hoverlap⟩
    exact ⟨j, b, hb, hne, hoverlap⟩
  · rintro ⟨j, b, hb, hne, hoverlap⟩
    exact ⟨b, j, hb, hne, hoverlap⟩

/-- A way is given one token more if comparing all ways at the present depth would ask for it. -/
theorem Settling.isGrowing_iff (h : Settling s choice ways k c) (ha : c.alternatives[i]? = some a) :
    c.isGrowing a i = true ↔ ¬ s.ApartAt choice ways i k := by
  rw [ChoiceSearch.isGrowing_iff h.toTold ha]
  constructor
  · intro hgrowing hapart
    obtain ⟨j, b, hb, hne, hoverlap⟩ := hgrowing
    have hdepth := h.depth_eq ha hb hne hoverlap
    have hdepth' := h.depth_eq hb ha hne.symm hoverlap.symm
    obtain ⟨way, d, hway, rfl, -⟩ := h.exists_atDepth ha
    obtain ⟨other, e, hother, rfl, -⟩ := h.exists_atDepth hb
    obtain rfl : d = k := hdepth
    obtain rfl : e = d := hdepth'
    exact hapart way j other hway hother hne hoverlap
  · intro hshared
    simp only [GrammarSets.ApartAt, not_forall, Classical.not_not] at hshared
    obtain ⟨way, j, other, hway, hother, hne, hoverlap⟩ := hshared
    have hdepth := h.depth_eq_of_overlaps hway hother hne hoverlap ha
    obtain ⟨b, hb⟩ := h.exists_alternative hother
    have hdepth' := h.depth_eq_of_overlaps hother hway hne.symm hoverlap.symm hb
    refine ⟨j, b, hb, hne, ?_⟩
    rwa [h.set_eq hway ha, h.set_eq hother hb, hdepth, hdepth']

theorem Settling.any_isGrowing_iff (h : Settling s choice ways k c) :
    (c.alternatives.zipIdx.any fun (a, i) => c.isGrowing a i) = true ↔
      ∃ i, ¬ s.ApartAt choice ways i k := by
  simp only [List.any_eq_true, Prod.exists, List.mem_zipIdx_iff_getElem?]
  constructor
  · rintro ⟨a, i, ha, hgrowing⟩
    exact ⟨i, (h.isGrowing_iff ha).1 hgrowing⟩
  · rintro ⟨i, hshared⟩
    have hway : ∃ way, ways[i]? = some way := by
      simp only [GrammarSets.ApartAt, not_forall] at hshared
      obtain ⟨way, -, -, hway, -⟩ := hshared
      exact ⟨way, hway⟩
    obtain ⟨way, hway⟩ := hway
    obtain ⟨a, ha⟩ := h.exists_alternative hway
    exact ⟨a, i, ha, (h.isGrowing_iff ha).2 hshared⟩

theorem start_settling {g : Grammar} (hstated : ∀ alt, some alt ∈ (g.kindOf choice).ways →
    g.statedLookahead? alt = none) :
    Settling s choice (g.kindOf choice).ways 1 (start g s choice) := by
  have htold := start_told (s := s) hstated (Nat.le_refl 1)
  refine ⟨htold, .inl rfl, ?_, ?_⟩
  · intro i a ha n hn hpos
    obtain ⟨way, d, -, rfl, -, hd⟩ := htold.exists_atDepth ha
    have hn' : n < d := hn
    omega
  · intro i a ha hlt
    obtain ⟨way, d, -, rfl, hd, -⟩ := htold.exists_atDepth ha
    have hlt' : d < 1 := hlt
    omega

theorem getElem?_grow (s : GrammarSets) (c : ChoiceSearch) (k i : Nat) :
    (c.grow s k).alternatives[i]? = c.alternatives[i]?.map fun a =>
      if c.isGrowing a i then .atDepth s c.choice a.expansion k else a :=
  List.getElem?_mapIdx

theorem Settling.grow (h : Settling s choice ways k c)
    (hshared : ∃ i, ¬ s.ApartAt choice ways i k) :
    Settling s choice ways (k + 1) (c.grow s (k + 1)) := by
  refine ⟨(h.toTold.mono (Nat.le_succ k)).grow (Nat.succ_pos k) (Nat.le_refl _), ?_, ?_, ?_⟩
  · obtain ⟨⟨a, i⟩, hmem, hgrowing⟩ := List.any_eq_true.1 (h.any_isGrowing_iff.2 hshared)
    have ha := List.mem_zipIdx_iff_getElem?.1 hmem
    right
    refine ⟨.atDepth s c.choice a.expansion (k + 1), List.mem_of_getElem? (i := i) ?_, rfl⟩
    rw [getElem?_grow, ha, Option.map_some, if_pos hgrowing]
  · intro i a' ha' n hn hpos hapart
    rw [getElem?_grow] at ha'
    obtain ⟨a, ha, rfl⟩ := Option.map_eq_some_iff.1 ha'
    by_cases hgrowing : c.isGrowing a i = true
    · rw [if_pos hgrowing] at hn
      exact (h.isGrowing_iff ha).1 hgrowing (hapart.mono (Nat.le_of_lt_succ hn))
    · rw [if_neg hgrowing] at hn
      exact h.needed i a ha n hn hpos hapart
  · intro i a' ha' hlt
    rw [getElem?_grow] at ha'
    obtain ⟨a, ha, rfl⟩ := Option.map_eq_some_iff.1 ha'
    by_cases hgrowing : c.isGrowing a i = true
    · rw [if_pos hgrowing] at hlt
      exact absurd hlt (Nat.lt_irrefl _)
    · rw [if_neg hgrowing] at hlt ⊢
      rcases Nat.lt_or_eq_of_le (Nat.le_of_lt_succ hlt) with hlt | heq
      · exact h.apart i a ha hlt
      · rw [heq]
        exact Classical.not_not.1 fun hnot => hgrowing ((h.isGrowing_iff ha).2 hnot)

/-- The search ends where all ways are apart, or where it may go no further. -/
theorem Settling.run (h : Settling s choice ways k c) (left : Nat) :
    Settling s choice ways (c.run s left k).1 (c.run s left k).2 ∧
      (c.run s left k).1 ≤ k + left ∧
      ((c.run s left k).1 = k + left ∨
        ∀ i, s.ApartAt choice ways i (c.run s left k).1) := by
  induction left generalizing k c with
  | zero => exact ⟨h, Nat.le_refl _, .inl rfl⟩
  | succ left ih =>
    rw [ChoiceSearch.run]
    by_cases hgrowing : (c.alternatives.zipIdx.any fun (a, i) => c.isGrowing a i) = true
    · have hsum : k + (left + 1) = k + 1 + left := by omega
      rw [if_pos hgrowing, hsum]
      exact ih (h.grow (h.any_isGrowing_iff.1 hgrowing))
    · rw [if_neg hgrowing]
      refine ⟨h, Nat.le_add_right _ _, .inr fun i => ?_⟩
      exact Classical.not_not.1 fun hnot => hgrowing (h.any_isGrowing_iff.2 ⟨i, hnot⟩)

theorem Settling.outcome_eq_resolved_iff (h : Settling s choice ways k c) :
    c.outcome = .resolved ↔ ∀ i, s.ApartAt choice ways i k := by
  constructor
  · intro hresolved i
    by_contra hshared
    obtain ⟨⟨a, i⟩, hmem, hgrowing⟩ := List.any_eq_true.1 (h.any_isGrowing_iff.2 ⟨i, hshared⟩)
    have ha := List.mem_zipIdx_iff_getElem?.1 hmem
    obtain ⟨j, b, hb, hne, hoverlap⟩ := (ChoiceSearch.isGrowing_iff h.toTold ha).1 hgrowing
    rcases Nat.lt_or_gt_of_ne hne with hji | hij
    · have hnone := h.overlap?_eq_none hresolved hb ha hji
      have hsome := SequenceSet.isSome_overlap?_iff.2 hoverlap.symm
      simp [hnone] at hsome
    · have hnone := h.overlap?_eq_none hresolved ha hb hij
      have hsome := SequenceSet.isSome_overlap?_iff.2 hoverlap
      simp [hnone] at hsome
  · intro hapart
    rw [outcome_resolved_iff, firstMeeting?_eq_none_iff, h.checked_eq, List.pairwise_iff_getElem]
    intro i j hi hj hij
    rw [List.length_zipIdx] at hi hj
    rw [List.getElem_zipIdx, List.getElem_zipIdx, ← Option.not_isSome_iff_eq_none,
      SequenceSet.isSome_overlap?_iff]
    intro hoverlap
    have hgrowing := (ChoiceSearch.isGrowing_iff h.toTold (List.getElem?_eq_getElem hi)).2
      ⟨j, _, List.getElem?_eq_getElem hj, Nat.ne_of_gt hij, hoverlap⟩
    exact (h.isGrowing_iff (List.getElem?_eq_getElem hi)).1 hgrowing (hapart i)

theorem Settling.plan_k (h : Settling s choice ways k c) : (c.plan k).k = k := by
  have hle : ∀ a ∈ c.alternatives, a.depth ≤ k := by
    intro a ha
    obtain ⟨i, hi⟩ := List.mem_iff_getElem?.1 ha
    obtain ⟨way, d, -, rfl, -, hd⟩ := h.exists_atDepth hi
    exact hd
  have hfold (as : List Alternative) (has : ∀ a ∈ as, a.depth ≤ k) :
      as.foldl (fun k a => max k a.depth) k = k := by
    induction as with
    | nil => rfl
    | cons a as ih =>
      rw [List.foldl_cons, Nat.max_eq_left (has a List.mem_cons_self)]
      exact ih fun b hb => has b (List.mem_cons_of_mem _ hb)
  exact hfold c.alternatives hle

/-- The depth that a way is left with is the least at which it is apart, or the bound of the
search. -/
theorem Settling.isLeast_depth {m : Nat} (h : Settling s choice ways k c) (hle : k ≤ m)
    (hend : k = m ∨ ∀ i, s.ApartAt choice ways i k) (ha : c.alternatives[i]? = some a) :
    IsLeast {n | 1 ≤ n ∧ n ≤ m ∧ s.ApartAt choice ways i n} a.depth ∨
      a.depth = m ∧ ∀ n, 1 ≤ n → n ≤ m → ¬ s.ApartAt choice ways i n := by
  obtain ⟨way, d, hway, rfl, hpos, hdk⟩ := h.exists_atDepth ha
  have hneeded : ∀ n < d, 1 ≤ n → ¬ s.ApartAt choice ways i n := h.needed i _ ha
  by_cases hapart : s.ApartAt choice ways i d
  · left
    refine ⟨⟨hpos, Nat.le_trans hdk hle, hapart⟩, ?_⟩
    intro n hn
    by_contra hlt
    exact hneeded n (Nat.lt_of_not_le hlt) hn.1 hn.2.2
  · right
    have hd : d = k := by
      by_contra hne
      exact hapart (h.apart i _ ha (Nat.lt_of_le_of_ne hdk hne))
    subst hd
    have hm : d = m := hend.resolve_right fun hall => hapart (hall i)
    refine ⟨hm, ?_⟩
    intro n hn hnm
    rcases Nat.lt_or_eq_of_le (hm ▸ hnm) with hlt | rfl
    · exact hneeded n hlt hn
    · exact hapart

theorem Settling.isGreatest_depth (h : Settling s choice ways k c) :
    c.alternatives = [] ∧ k = 1 ∨ IsGreatest {d | ∃ a ∈ c.alternatives, a.depth = d} k := by
  have hbound : ∀ a ∈ c.alternatives, 1 ≤ a.depth ∧ a.depth ≤ k := by
    intro a ha
    obtain ⟨i, hi⟩ := List.mem_iff_getElem?.1 ha
    obtain ⟨way, d, -, rfl, hpos, hle⟩ := h.exists_atDepth hi
    exact ⟨hpos, hle⟩
  have hupper : k ∈ upperBounds {d | ∃ a ∈ c.alternatives, a.depth = d} := by
    rintro d ⟨a, ha, rfl⟩
    exact (hbound a ha).2
  rcases h.reached with rfl | hreached
  · cases hnil : c.alternatives with
    | nil => exact .inl ⟨rfl, rfl⟩
    | cons a as =>
      rw [hnil] at hbound hupper
      obtain ⟨hpos, hle⟩ := hbound a List.mem_cons_self
      exact .inr ⟨⟨a, List.mem_cons_self, by omega⟩, hupper⟩
  · exact .inr ⟨hreached, hupper⟩

end ChoiceSearch

namespace Grammar

theorem countP_planReports (g : Grammar) (choice : Nat) (p : Plan) (k : Nat) :
    (g.planReports choice p k).countP (fun d => d.kind = .lookaheadGrowth ∧ d.severity = .note) =
        (if 1 < k then 1 else 0) ∧
      (g.planReports choice p k).countP (fun d => d.kind = .lookaheadConflict) =
        (if p.outcome = .resolved then 0 else 1) := by
  rw [planReports]
  cases p.outcome with
  | resolved =>
    by_cases hk : 1 < k <;> simp [hk, Diagnostic.ofKind, Diagnostic.Kind.severity]
  | conflict i j shared =>
    by_cases hk : 1 < k <;>
      simp [hk, conflictReport, Diagnostic.ofKind, Diagnostic.Kind.severity]

/-- The plan for a choice without stated lookahead is what comparing all its ways at each depth from
one up to the bound asks for. It is resolved if they are apart from each other at the bound. Each
way has the least depth at which it is apart from the others, or the bound where there is none, and
the set of this depth. The plan looks at as many tokens as its deepest way. Growth and conflict are
reported once each, where they occur. -/
theorem planChoice_uniform (g : Grammar) {choice : Nat} {p : Plan} {reports : List Diagnostic}
    (hplan : g.planChoice g.computeSets.1 choice = (p, reports))
    (hstated : ∀ alt, some alt ∈ (g.kindOf choice).ways → g.statedLookahead? alt = none) :
    let s := g.computeSets.1
    let ways := (g.kindOf choice).ways
    let m := g.searchBound s
    (p.outcome = .resolved ↔ ∀ i, s.ApartAt choice ways i m) ∧
    p.alternatives.length = ways.length ∧
    (∀ (i : Nat) way, ways[i]? = some way →
      ∃ d, p.alternatives[i]? = some (.atDepth s choice way d) ∧
        (IsLeast {k | 1 ≤ k ∧ k ≤ m ∧ s.ApartAt choice ways i k} d ∨
          d = m ∧ ∀ k, 1 ≤ k → k ≤ m → ¬ s.ApartAt choice ways i k)) ∧
    (p.alternatives = [] ∧ p.k = 1 ∨ IsGreatest {d | ∃ a ∈ p.alternatives, a.depth = d} p.k) ∧
    reports.countP (fun d => d.kind = .lookaheadGrowth ∧ d.severity = .note) =
      (if 1 < p.k then 1 else 0) ∧
    reports.countP (fun d => d.kind = .lookaheadConflict) =
      (if p.outcome = .resolved then 0 else 1) := by
  intro s ways m
  have hstart : ChoiceSearch.Settling s choice ways 1 (.start g s choice) :=
    ChoiceSearch.start_settling hstated
  obtain ⟨hend, hle, hstop⟩ := hstart.run (m - 1)
  have hpos : 1 ≤ m := Nat.le_max_left _ _
  rw [Nat.add_sub_cancel' hpos] at hle hstop
  rw [planChoice] at hplan
  generalize hrun : (ChoiceSearch.start g s choice).run s (m - 1) 1 = result at hend hle hstop
  obtain ⟨k, c⟩ := result
  rw [hrun] at hplan
  obtain ⟨rfl, rfl⟩ := Prod.mk.inj hplan
  obtain ⟨hgrowth, hconflict⟩ := countP_planReports g choice (c.plan k) k
  refine ⟨?_, hend.length_eq, ?_, ?_, ?_, hconflict⟩
  · apply hend.outcome_eq_resolved_iff.trans
    constructor
    · intro hapart i
      exact (hapart i).mono hle
    · intro hapart
      rcases hstop with rfl | hall
      · exact hapart
      · exact hall
  · intro i way hway
    obtain ⟨d, -, -, ha⟩ := hend.told i way hway
    exact ⟨d, ha, hend.isLeast_depth hle hstop ha⟩
  · rw [hend.plan_k]
    exact hend.isGreatest_depth
  · rw [hend.plan_k]
    exact hgrowth

def itemOrTwo : Grammar :=
  let node (kind : Node.Kind) (parent : Option Nat) : Node := ⟨kind, .none, parent, 0⟩
  { empty {} with
    productions := #[⟨"Items", 0, 3, none, .none⟩]
    productionNames := ⟨["Items"]⟩
    nodes := #[node (.token 1) (some 1), node (.zeroOrOne 0) (some 3), node (.token 1) (some 3),
      node (.sequence [1, 2]) none]
    productions_numbered := (Numbered.empty Production.id).push rfl }

theorem planChoice_uniform_itemOrTwo :
    (∀ alt, some alt ∈ (itemOrTwo.kindOf 1).ways → itemOrTwo.statedLookahead? alt = none) ∧
      (itemOrTwo.planChoice itemOrTwo.computeSets.1 1).1.k = 2 ∧
      IsLeast {k | 1 ≤ k ∧ k ≤ 2 ∧ itemOrTwo.computeSets.1.ApartAt 1 [some 0, none] 0 k} 2 := by
  have hways : (itemOrTwo.kindOf 1).ways = [some 0, none] := rfl
  have hstated : ∀ alt, some alt ∈ (itemOrTwo.kindOf 1).ways →
      itemOrTwo.statedLookahead? alt = none := by
    intro alt halt
    simp only [hways, List.mem_cons, Option.some.injEq, List.not_mem_nil, or_false,
      reduceCtorEq] at halt
    rw [halt]
    rfl
  have hbound : itemOrTwo.searchBound itemOrTwo.computeSets.1 = 2 := by decide +kernel
  have houtcome : (itemOrTwo.planChoice itemOrTwo.computeSets.1 1).1.outcome = .resolved := by
    decide +kernel
  have hdepth : (itemOrTwo.planChoice itemOrTwo.computeSets.1 1).1.alternatives[0]?.map
      Alternative.depth = some 2 := by decide +kernel
  have hk : (itemOrTwo.planChoice itemOrTwo.computeSets.1 1).1.k = 2 := by decide +kernel
  have hplan := (Prod.eta (itemOrTwo.planChoice itemOrTwo.computeSets.1 1)).symm
  obtain ⟨hresolved, -, hdepths, -⟩ := planChoice_uniform itemOrTwo hplan hstated
  rw [hbound, hways] at hresolved hdepths
  obtain ⟨d, ha, hd⟩ := hdepths 0 (some 0) rfl
  rw [ha, Option.map_some] at hdepth
  obtain rfl : d = 2 := Option.some.inj hdepth
  refine ⟨hstated, hk, hd.resolve_right fun hshared => ?_⟩
  exact hshared.2 2 (by decide) (Nat.le_refl 2) (hresolved.1 houtcome 0)

end Grammar
end PredictiveParsing
