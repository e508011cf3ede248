import PredictiveParsing.Proofs.UniformLookahead

/-!
# Conflicts are what a parser can run into

The search compares members of finite sets, and a parser matches upcoming tokens against them. Two
sets have members of which one begins the other exactly if there are upcoming tokens that both of
them match, so a plan is in conflict exactly if a parser can find two of the checked alternatives
open to it. This does not depend on how the search came to the sets, so it covers alternatives with
stated lookahead, which it cannot change. Main statement: `outcome_planChoices`.
-/
namespace PredictiveParsing

namespace SequenceSet

variable {a b : SequenceSet} {x y shared : List Nat}

theorem exists_extension_of_sharedStart? (h : sharedStart? x y = some shared) :
    ∃ upcoming, shared <+: upcoming ∧ x <+: upcoming ∧ y <+: upcoming := by
  have hbegins : x <+: y ∨ y <+: x := isSome_sharedStart?_iff.1 (by rw [h]; rfl)
  have hshared : shared <+: x := by
    simp only [sharedStart?, Option.ite_none_right_eq_some, Option.some.injEq] at h
    exact h.2 ▸ List.take_prefix _ x
  rcases hbegins with hxy | hyx
  · exact ⟨y, hshared.trans hxy, hxy, List.prefix_refl y⟩
  · exact ⟨x, hshared, List.prefix_refl x, hyx⟩

theorem exists_accepts_of_overlap? (h : a.overlap? b = some shared) :
    ∃ upcoming, shared <+: upcoming ∧ a.accepts upcoming = true ∧ b.accepts upcoming = true := by
  obtain ⟨x, hx, h⟩ := List.exists_of_findSome?_eq_some h
  obtain ⟨y, hy, h⟩ := List.exists_of_findSome?_eq_some h
  obtain ⟨upcoming, hshared, hxu, hyu⟩ := exists_extension_of_sharedStart? h
  exact ⟨upcoming, hshared, accepts_iff.2 ⟨x, hx, hxu⟩, accepts_iff.2 ⟨y, hy, hyu⟩⟩

end SequenceSet

namespace ChoiceSearch

variable {i j n : Nat} {shared : List Nat} {l : List (Alternative × Nat)} {a : Alternative}

theorem partner_eq_some (hl : l.Pairwise fun p q => p.2 < q.2)
    (h : (l.findSome? fun (b, m) => (a.set.overlap? b.set).map fun shared => (n, m, shared)) =
      some (i, j, shared)) :
    n = i ∧ ∃ b, (b, j) ∈ l ∧ a.set.overlap? b.set = some shared ∧
      ∀ q ∈ l, (a.set.overlap? q.1.set).isSome → j ≤ q.2 := by
  obtain ⟨before, ⟨b, m⟩, after, rfl, hmeet, hnone⟩ := List.findSome?_eq_some_iff.1 h
  obtain ⟨s, hs, heq⟩ := Option.map_eq_some_iff.1 hmeet
  obtain ⟨rfl, rfl, rfl⟩ : n = i ∧ m = j ∧ s = shared := by simpa using heq
  refine ⟨rfl, b, by simp, hs, fun q hq hsome => ?_⟩
  rcases List.mem_append.1 hq with hq | hq
  · rw [Option.map_eq_none_iff.1 (hnone q hq)] at hsome
    cases hsome
  · rcases List.mem_cons.1 hq with rfl | hq
    · exact Nat.le_refl _
    · have hordered := (List.pairwise_append.1 hl).2.1
      exact Nat.le_of_lt ((List.pairwise_cons.1 hordered).1 q hq)

theorem mem_tail_of_lt {p q head : Alternative × Nat}
    (hl : (head :: l).Pairwise fun p q => p.2 < q.2) (hp : p ∈ head :: l) (hq : q ∈ head :: l)
    (hlt : p.2 < q.2) : q ∈ l := by
  refine (List.mem_cons.1 hq).resolve_left ?_
  rintro rfl
  rcases List.mem_cons.1 hp with rfl | hp
  · exact Nat.lt_irrefl _ hlt
  · exact Nat.lt_asymm hlt ((List.pairwise_cons.1 hl).1 p hp)

/-- The first meeting is that of two members, and no two that share something come before them. -/
theorem firstMeeting?_eq_some (hl : l.Pairwise fun p q => p.2 < q.2)
    (h : firstMeeting? l = some (i, j, shared)) :
    ∃ a b, (a, i) ∈ l ∧ (b, j) ∈ l ∧ i < j ∧ a.set.overlap? b.set = some shared ∧
      ∀ p ∈ l, ∀ q ∈ l, p.2 < q.2 → (p.1.set.overlap? q.1.set).isSome →
        i < p.2 ∨ i = p.2 ∧ j ≤ q.2 := by
  induction l with
  | nil => cases h
  | cons head later ih =>
    obtain ⟨a, n⟩ := head
    obtain ⟨hhead, hlater⟩ := List.pairwise_cons.1 hl
    rw [firstMeeting?] at h
    split at h
    · next found hfound =>
      obtain rfl := Option.some.inj h
      obtain ⟨rfl, b, hb, hshared, hfirst⟩ := partner_eq_some hlater hfound
      refine ⟨a, b, List.mem_cons_self, List.mem_cons_of_mem _ hb, hhead _ hb, hshared, ?_⟩
      intro p hp q hq hlt hsome
      have hq := mem_tail_of_lt hl hp hq hlt
      rcases List.mem_cons.1 hp with rfl | hp
      · exact .inr ⟨rfl, hfirst q hq hsome⟩
      · exact .inl (hhead p hp)
    · next hapart =>
      obtain ⟨b, d, hb, hd, hlt, hshared, hfirst⟩ := ih hlater h
      refine ⟨b, d, List.mem_cons_of_mem _ hb, List.mem_cons_of_mem _ hd, hlt, hshared, ?_⟩
      intro p hp q hq hlt hsome
      have hq := mem_tail_of_lt hl hp hq hlt
      rcases List.mem_cons.1 hp with rfl | hp
      · -- the head shares nothing with what comes behind it
        rw [Option.map_eq_none_iff.1 (List.findSome?_eq_none_iff.1 hapart q hq)] at hsome
        cases hsome
      · exact hfirst p hp q hq hlt hsome

theorem force_run (s : GrammarSets) (left k : Nat) (c : ChoiceSearch) :
    (c.run s left k).2.force = c.force := by
  induction left generalizing k c with
  | zero => rfl
  | succ left ih =>
    rw [run]
    split
    · exact ih (k + 1) _
    · rfl

end ChoiceSearch

namespace Plan

/-- Alternatives `i` and `j` are both checked, and both match `upcoming`. Those whose lookahead is
stated are checked with `force` only. -/
def BothMatch (p : Plan) (force : Bool) (i j : Nat) (upcoming : List Nat) : Prop :=
  ∃ a b, p.alternatives[i]? = some a ∧ p.alternatives[j]? = some b ∧
    (force = true ∨ a.guard = none ∧ b.guard = none) ∧
    a.set.accepts upcoming = true ∧ b.set.accepts upcoming = true

theorem BothMatch.symm {p : Plan} {force : Bool} {i j : Nat} {upcoming : List Nat}
    (h : p.BothMatch force i j upcoming) : p.BothMatch force j i upcoming := by
  obtain ⟨a, b, ha, hb, hchecked, hau, hbu⟩ := h
  exact ⟨b, a, hb, ha, hchecked.imp_right And.symm, hbu, hau⟩

end Plan

namespace ChoiceSearch

variable {c : ChoiceSearch} {searched i j : Nat}

theorem bothMatch_iff {upcoming : List Nat} :
    (c.plan searched).BothMatch c.force i j upcoming ↔
      ∃ a b, (a, i) ∈ c.checked ∧ (b, j) ∈ c.checked ∧
        a.set.accepts upcoming = true ∧ b.set.accepts upcoming = true := by
  simp only [mem_checked]
  constructor
  · rintro ⟨a, b, ha, hb, hchecked, hau, hbu⟩
    exact ⟨a, b, ⟨ha, hchecked.imp_right And.left⟩, ⟨hb, hchecked.imp_right And.right⟩, hau, hbu⟩
  · rintro ⟨a, b, ⟨ha, hfa⟩, ⟨hb, hfb⟩, hau, hbu⟩
    refine ⟨a, b, ha, hb, ?_, hau, hbu⟩
    rcases hfa with hforce | hfa
    · exact .inl hforce
    · exact hfb.imp_right (And.intro hfa)

theorem outcome_eq_conflict (searched : Nat) {first second : Nat} {shared : List Nat}
    (h : c.outcome = .conflict first second shared) :
    first < second ∧
      (∃ upcoming, shared <+: upcoming ∧
        (c.plan searched).BothMatch c.force first second upcoming) ∧
      ∀ i j upcoming, i < j → (c.plan searched).BothMatch c.force i j upcoming →
        first < i ∨ first = i ∧ second ≤ j := by
  obtain ⟨a, b, ha, hb, hlt, hshared, hfirst⟩ :=
    firstMeeting?_eq_some c.checked_increasing (outcome_conflict_iff.1 h)
  obtain ⟨upcoming, hprefix, hau, hbu⟩ := SequenceSet.exists_accepts_of_overlap? hshared
  refine ⟨hlt, ⟨upcoming, hprefix, bothMatch_iff.2 ⟨a, b, ha, hb, hau, hbu⟩⟩, ?_⟩
  intro i j upcoming hij hmatch
  obtain ⟨d, e, hd, he, hdu, heu⟩ := bothMatch_iff.1 hmatch
  exact hfirst (d, i) hd (e, j) he hij (SequenceSet.isSome_overlap? hdu heu)

theorem outcome_eq_resolved_iff : c.outcome = .resolved ↔
    ¬ ∃ i j upcoming, i ≠ j ∧ (c.plan searched).BothMatch c.force i j upcoming := by
  constructor
  · rintro h ⟨i, j, upcoming, hne, hmatch⟩
    have hordered (i j : Nat) (hlt : i < j) :
        ¬ (c.plan searched).BothMatch c.force i j upcoming := by
      intro hmatch
      obtain ⟨a, b, ha, hb, hau, hbu⟩ := bothMatch_iff.1 hmatch
      have hsome := SequenceSet.isSome_overlap? hau hbu
      rw [overlap?_eq_none_of_resolved h ha hb hlt] at hsome
      cases hsome
    rcases Nat.lt_or_gt_of_ne hne with hlt | hlt
    · exact hordered i j hlt hmatch
    · exact hordered j i hlt hmatch.symm
  · intro h
    cases hout : c.outcome with
    | resolved => rfl
    | conflict first second shared =>
      obtain ⟨hlt, ⟨upcoming, -, hmatch⟩, -⟩ := outcome_eq_conflict searched hout
      exact absurd ⟨first, second, upcoming, Nat.ne_of_lt hlt, hmatch⟩ h

end ChoiceSearch

namespace Grammar

/-- A plan is resolved exactly if no upcoming tokens are matched by two of the alternatives that are
checked. A conflict names the first two that match the same, and what such tokens begin with. -/
theorem outcome_planChoices {g : Grammar} {s : GrammarSets} {choice : Nat} {p : Plan}
    (h : (g.planChoices s).1[choice]? = some (some p)) :
    (p.outcome = .resolved ↔
      ¬ ∃ i j upcoming, i ≠ j ∧ p.BothMatch g.options.forceLookaheadCheck i j upcoming) ∧
    ∀ first second shared, p.outcome = .conflict first second shared →
      first < second ∧
      (∃ upcoming, shared <+: upcoming ∧
        p.BothMatch g.options.forceLookaheadCheck first second upcoming) ∧
      ∀ i j upcoming, i < j → p.BothMatch g.options.forceLookaheadCheck i j upcoming →
        first < i ∨ first = i ∧ second ≤ j := by
  obtain ⟨-, rfl⟩ := planChoices_eq h
  have hforce : ((ChoiceSearch.start g s choice).run s (g.searchBound s - 1) 1).2.force =
      g.options.forceLookaheadCheck := ChoiceSearch.force_run ..
  rw [← hforce]
  exact ⟨ChoiceSearch.outcome_eq_resolved_iff, fun _ _ _ => ChoiceSearch.outcome_eq_conflict _⟩

/-- `P → LOOKAHEAD(1) "x" | "x"`, where stated lookahead is checked too. -/
def statedAndPlain : Grammar :=
  let node (kind : Node.Kind) (parent : Option Nat) : Node := ⟨kind, .none, parent, 0⟩
  { empty { forceLookaheadCheck := true } with
    productions := #[⟨"P", 0, 4, none, .none⟩]
    productionNames := ⟨["P"]⟩
    nodes := #[node (.lookahead ⟨some 1, none, none, false⟩) (some 2), node (.token 1) (some 2),
      node (.sequence [0, 1]) (some 4), node (.token 1) (some 4), node (.choice [2, 3]) none]
    productions_numbered := (Numbered.empty Production.id).push rfl }

/-- The plain alternative is given two tokens, and the stated one keeps its own. -/
theorem outcome_planChoices_statedAndPlain :
    ∃ p, (statedAndPlain.planChoices statedAndPlain.computeSets.1).1[4]? = some (some p) ∧
      p.alternatives.map Alternative.depth = [1, 2] ∧ p.outcome = .conflict 0 1 [1] ∧
      ∃ upcoming, [1] <+: upcoming ∧ p.BothMatch true 0 1 upcoming := by
  have hsize : 4 < statedAndPlain.nodes.size := by decide
  have hchoice : (statedAndPlain.kindOf 4).isChoicePoint = true := by decide
  have hplan := getElem?_planChoices statedAndPlain.computeSets.1 hsize
  rw [if_pos hchoice] at hplan
  have hdepths : (statedAndPlain.planChoice statedAndPlain.computeSets.1 4).1.alternatives.map
      Alternative.depth = [1, 2] := by decide +kernel
  have hconflict : (statedAndPlain.planChoice statedAndPlain.computeSets.1 4).1.outcome =
      .conflict 0 1 [1] := by decide +kernel
  exact ⟨_, hplan, hdepths, hconflict, ((outcome_planChoices hplan).2 0 1 [1] hconflict).2.1⟩

end Grammar
end PredictiveParsing
