import PredictiveParsing.Proofs.Conflicts
import PredictiveParsing.Proofs.StatedLookahead

/-!
# As many tokens as a plan looks at

The sets of a plan come from different places: a search that grows them, amounts that are stated,
scans and mere predicates. None of them has a member longer than the depth of its alternative, and
no depth is beyond what the plan says a parser looks at. So tokens after those change neither the
choice nor the predicates asked on the way. Main statement: `selectWith_take`.
-/
namespace PredictiveParsing

theorem SequenceSet.accepts_take {a : SequenceSet} {k : Nat} (h : ∀ x ∈ a, x.length ≤ k)
    (upcoming : List Nat) : a.accepts (upcoming.take k) = a.accepts upcoming := by
  apply Bool.eq_iff_iff.2
  rw [accepts_iff, accepts_iff]
  constructor
  · intro ⟨x, hx, hbegin⟩
    exact ⟨x, hx, hbegin.trans (List.take_prefix k upcoming)⟩
  · intro ⟨x, hx, hbegin⟩
    exact ⟨x, hx, List.prefix_take_iff.2 ⟨hbegin, h x hx⟩⟩

theorem le_foldl_of_mem {α : Type} {f : Nat → α → Nat} (hup : ∀ n x, n ≤ f n x) {l : List α} {x : α}
    (hx : x ∈ l) {m : Nat} (hm : ∀ n, m ≤ f n x) (n : Nat) : m ≤ l.foldl f n := by
  have hstart (l : List α) (n : Nat) : n ≤ l.foldl f n := by
    induction l generalizing n with
    | nil => exact Nat.le_refl n
    | cons y l ih => exact Nat.le_trans (hup n y) (ih (f n y))
  induction l generalizing n with
  | nil => cases hx
  | cons y l ih =>
    rw [List.foldl_cons]
    rcases List.mem_cons.1 hx with rfl | hx
    · exact Nat.le_trans (hm n) (hstart l _)
    · exact ih hx _

namespace Alternative

variable {a : Alternative} {as : List Alternative} {k bound : Nat}

/-- The choice where the answer to a predicate may depend on those asked before it. -/
def selectAfter (holds : List String → String → Bool) (upcoming : List Nat) (before : List String) :
    List Alternative → Option Nat × List String
  | [] => (none, [])
  | a :: as =>
    match a.accepts (holds before) upcoming with
    | (true, asked) => (some 0, asked)
    | (false, asked) =>
      let (chosen, later) := selectAfter holds upcoming (before ++ asked) as
      (chosen.map (· + 1), asked ++ later)

theorem selectAfter_const (holds : String → Bool) (upcoming : List Nat) (before : List String)
    (as : List Alternative) :
    selectAfter (fun _ => holds) upcoming before as = select holds upcoming as := by
  induction as generalizing before with
  | nil => rfl
  | cons a as ih =>
    rw [selectAfter, select]
    cases a.accepts holds upcoming with
    | mk taken asked =>
      cases taken with
      | true => rfl
      | false => simp only [ih]

theorem accepts_take (h : ∀ x ∈ a.set, x.length ≤ k) (holds : String → Bool) (upcoming : List Nat) :
    a.accepts holds (upcoming.take k) = a.accepts holds upcoming := by
  rw [accepts, accepts, SequenceSet.accepts_take h]

theorem selectAfter_take (h : ∀ a ∈ as, ∀ x ∈ a.set, x.length ≤ k)
    (holds : List String → String → Bool) (upcoming : List Nat) (before : List String) :
    selectAfter holds (upcoming.take k) before as = selectAfter holds upcoming before as := by
  induction as generalizing before with
  | nil => rfl
  | cons a as ih =>
    obtain ⟨ha, has⟩ := List.forall_mem_cons.1 h
    rw [selectAfter, selectAfter, accepts_take ha]
    split
    · rfl
    · rw [ih has]

structure Bounded (k bound : Nat) (a : Alternative) : Prop where
  length_le : ∀ x ∈ a.set, x.length ≤ a.depth
  depth_le_bound : a.depth ≤ bound
  searched : a.guard = none → 1 ≤ a.depth ∧ a.depth ≤ k

theorem Bounded.mono {n : Nat} (h : Bounded k bound a) (hkn : k ≤ n) : Bounded n bound a := by
  refine ⟨h.length_le, h.depth_le_bound, ?_⟩
  intro hguard
  have hdepth := h.searched hguard
  omega

end Alternative

theorem SequenceSet.length_le_of_mem_truncate {a : SequenceSet} {k : Nat} {x : List Nat}
    (h : x ∈ a.truncate k) : x.length ≤ k := by
  obtain ⟨u, -, rfl⟩ := mem_truncate.1 h
  exact List.length_take_le k u

theorem GrammarSets.length_le_of_mem_selecting {s : GrammarSets} {choice k : Nat}
    {way : Option Nat} {x : List Nat} (h : x ∈ s.selecting choice way k) : x.length ≤ k := by
  cases way with
  | some alt => exact SequenceSet.length_le_of_mem_concat h
  | none => exact SequenceSet.length_le_of_mem_truncate h

namespace Alternative

variable {s : GrammarSets}

theorem bounded_atDepth (choice : Nat) (way : Option Nat) {k : Nat} (hpos : 1 ≤ k) (hk : k ≤ s.k) :
    Bounded k s.k (atDepth s choice way k) where
  length_le _ hx := GrammarSets.length_le_of_mem_selecting hx
  depth_le_bound := hk
  searched _ := ⟨hpos, Nat.le_refl k⟩

theorem bounded_ofStated (alt : Nat) {la : StatedLookahead} (h : ∀ n, la.amount = some n → n ≤ s.k)
    (k : Nat) : Bounded k s.k (ofStated s alt la) := by
  obtain ⟨amount, semantic, nested, negated⟩ := la
  cases nested with
  | some nested =>
    refine ⟨fun x hx => SequenceSet.length_le_of_mem_truncate hx, ?_, nofun⟩
    cases amount with
    | some n => exact h n rfl
    | none => exact Nat.le_refl s.k
  | none =>
    cases amount with
    | some n => exact ⟨fun x hx => SequenceSet.length_le_of_mem_concat hx, h n rfl, nofun⟩
    | none =>
      refine ⟨?_, Nat.zero_le s.k, nofun⟩
      intro x hx
      obtain rfl := SequenceSet.mem_epsilon.1 hx
      exact Nat.le_refl 0

end Alternative

namespace Grammar

variable {g : Grammar}

theorem amount_le_maxStatedAmount {id n : Nat} {la : StatedLookahead}
    (h : g.HasKind id (.lookahead la)) (hn : la.amount = some n) : n ≤ g.maxStatedAmount := by
  obtain ⟨node, hnode, hkind⟩ := Option.map_eq_some_iff.1 h
  rw [maxStatedAmount, ← Array.foldl_toList]
  apply le_foldl_of_mem ?_ (Array.mem_toList_iff.2 (Array.mem_of_getElem? hnode))
  · intro m
    simp only [hkind, hn]
    exact Nat.le_max_right m n
  · intro m node
    split
    · exact Nat.le_max_left ..
    · exact Nat.le_refl m

end Grammar

namespace ChoiceSearch

variable {s : GrammarSets} {k : Nat} {c : ChoiceSearch}

theorem bounded_start (g : Grammar) (choice : Nat) :
    ∀ a ∈ (start g g.computeSets.1 choice).alternatives, a.Bounded 1 g.computeSets.1.k := by
  intro a ha
  obtain ⟨way, -, rfl⟩ := List.mem_map.1 ha
  rw [Alternative.initial]
  split
  · next alt la hway =>
    apply Alternative.bounded_ofStated
    intro n hn
    obtain ⟨alt', -, hstated⟩ := Option.bind_eq_some_iff.1 hway
    obtain ⟨la', hla, heq⟩ := Option.map_eq_some_iff.1 hstated
    obtain ⟨rfl, rfl⟩ := Prod.mk.inj heq
    obtain ⟨first, rest, -, hfirst⟩ := Grammar.statedLookahead?_eq_some_iff.1 hla
    have hamount := Grammar.amount_le_maxStatedAmount hfirst hn
    change n ≤ max (max _ _) 1
    omega
  · exact Alternative.bounded_atDepth choice way (Nat.le_refl 1) g.one_le_setBound

theorem bounded_grow (h : ∀ a ∈ c.alternatives, a.Bounded k s.k) (hk : k + 1 ≤ s.k) :
    ∀ a ∈ (c.grow s (k + 1)).alternatives, a.Bounded (k + 1) s.k := by
  intro a ha
  obtain ⟨i, hi⟩ := List.mem_iff_getElem?.1 ha
  rw [getElem?_grow] at hi
  obtain ⟨b, hb, rfl⟩ := Option.map_eq_some_iff.1 hi
  split
  · exact Alternative.bounded_atDepth _ _ (by omega) hk
  · exact (h b (List.mem_of_getElem? hb)).mono (Nat.le_succ k)

/-- No alternative is given more than the depth at which the search ends, and that is within the
steps it may take. -/
theorem bounded_run {left : Nat} (h : ∀ a ∈ c.alternatives, a.Bounded k s.k)
    (hk : k + left ≤ s.k) :
    (∀ a ∈ (c.run s left k).2.alternatives, a.Bounded (c.run s left k).1 s.k) ∧
      (c.run s left k).1 ≤ k + left := by
  induction left generalizing k c with
  | zero => exact ⟨h, Nat.le_refl k⟩
  | succ left ih =>
    rw [run]
    split
    · have hgrown := bounded_grow h (by omega)
      obtain ⟨hrun, hle⟩ := ih hgrown (by omega)
      exact ⟨hrun, by omega⟩
    · exact ⟨h, by omega⟩

theorem depth_le_plan_k {a : Alternative} (searched : Nat) (ha : a ∈ c.alternatives) :
    a.depth ≤ (c.plan searched).k := by
  apply le_foldl_of_mem ?_ ha
  · intro n
    exact Nat.le_max_right n a.depth
  · intro n b
    exact Nat.le_max_left n b.depth

end ChoiceSearch

namespace Grammar

variable {g : Grammar} {choice : Nat} {p : Plan}

theorem bounded_planChoices (h : (g.planChoices g.computeSets.1).1[choice]? = some (some p)) :
    ∀ a ∈ p.alternatives,
      a.Bounded (g.searchBound g.computeSets.1) g.computeSets.1.k ∧ a.depth ≤ p.k := by
  obtain ⟨-, rfl⟩ := planChoices_eq h
  have hpos : 1 ≤ g.searchBound g.computeSets.1 := Nat.le_max_left ..
  have hbound := g.searchBound_le
  have hsteps : 1 + (g.searchBound g.computeSets.1 - 1) ≤ g.computeSets.1.k := by omega
  obtain ⟨hbounded, hle⟩ := ChoiceSearch.bounded_run (ChoiceSearch.bounded_start g choice) hsteps
  intro a ha
  exact ⟨(hbounded a ha).mono (by omega), ChoiceSearch.depth_le_plan_k _ ha⟩

/-- A plan made from the sets of a grammar chooses by the tokens it says a parser looks at: what
comes after them changes neither the alternative nor the predicates asked, also where a predicate
answers by what was asked before. The depths are those that the search or the grammar allows. -/
theorem selectWith_take (h : (g.planChoices g.computeSets.1).1[choice]? = some (some p)) :
    (∀ holds upcoming, p.selectWith holds (upcoming.take p.k) = p.selectWith holds upcoming) ∧
    (∀ holds upcoming before,
      Alternative.selectAfter holds (upcoming.take p.k) before p.alternatives =
        Alternative.selectAfter holds upcoming before p.alternatives) ∧
    ∀ a ∈ p.alternatives,
      (∀ x ∈ a.set, x.length ≤ a.depth) ∧
      (a.guard = none →
        1 ≤ a.depth ∧ a.depth ≤ max 1 (min g.options.maxLookahead g.computeSets.1.k)) ∧
      a.depth ≤ min p.k g.computeSets.1.k := by
  have hbounded := bounded_planChoices h
  have hlength : ∀ a ∈ p.alternatives, ∀ x ∈ a.set, x.length ≤ p.k := by
    intro a ha x hx
    obtain ⟨hwithin, hdepth⟩ := hbounded a ha
    have hmember := hwithin.length_le x hx
    omega
  refine ⟨?_, fun holds upcoming before => ?_, ?_⟩
  · intro holds upcoming
    rw [Plan.selectWith, Plan.selectWith, ← Alternative.selectAfter_const holds _ [],
      ← Alternative.selectAfter_const holds _ []]
    exact Alternative.selectAfter_take hlength _ upcoming []
  · exact Alternative.selectAfter_take hlength holds upcoming before
  · intro a ha
    obtain ⟨hwithin, hdepth⟩ := hbounded a ha
    exact ⟨hwithin.length_le, hwithin.searched, Nat.le_min.2 ⟨hdepth, hwithin.depth_le_bound⟩⟩

theorem selectWith_take_statedAndPlain :
    ∃ p, (statedAndPlain.planChoices statedAndPlain.computeSets.1).1[4]? = some (some p) ∧
      p.k = 2 ∧ p.alternatives.map Alternative.depth = [1, 2] ∧
      ∀ holds upcoming, p.selectWith holds (upcoming.take 2) = p.selectWith holds upcoming := by
  have hsize : 4 < statedAndPlain.nodes.size := by decide
  have hchoice : (statedAndPlain.kindOf 4).isChoicePoint = true := by decide
  have hplan := getElem?_planChoices statedAndPlain.computeSets.1 hsize
  rw [if_pos hchoice] at hplan
  have hk : (statedAndPlain.planChoice statedAndPlain.computeSets.1 4).1.k = 2 := by decide +kernel
  have hdepths : (statedAndPlain.planChoice statedAndPlain.computeSets.1 4).1.alternatives.map
      Alternative.depth = [1, 2] := by decide +kernel
  have htake := (selectWith_take hplan).1
  rw [hk] at htake
  exact ⟨_, hplan, hk, hdepths, htake⟩

end Grammar
end PredictiveParsing
