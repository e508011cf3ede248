import Mathlib.Data.List.Sublists
import PredictiveParsing.Automaton.Subset
import PredictiveParsing.Proofs.Alphabet
import PredictiveParsing.Proofs.Exploration
import PredictiveParsing.Proofs.Transitions

/-!
# The subset construction

The deterministic automaton goes through the sets of states that the nondeterministic one can be in.
The elementary interval of a code point leads to just those states that the code point leads to, and
all sets that a text leads to are found. Main statement: `verdict_determinize`.
-/
namespace PredictiveParsing.Nfa

open Exploration CharSet

structure WellFormed (nfa : Nfa) : Prop where
  start : 0 < nfa.size
  silent : ∀ q, ∀ t ∈ nfa.silent q, t < nfa.size
  edge : ∀ q, ∀ e ∈ (nfa.state q).edges, e.2 < nfa.size

variable {nfa : Nfa} {qs : List Nat} {c q t i : Nat}

theorem lt_of_mem_edges {e : CharSet × Nat} (he : e ∈ (nfa.state q).edges) : q < nfa.size := by
  by_contra hge
  rw [state, Array.getElem?_eq_none (Nat.le_of_not_lt hge)] at he
  cases he

theorem mem_labels {e : CharSet × Nat} (he : e ∈ (nfa.state q).edges) : e.1 ∈ nfa.labels := by
  have hlt := lt_of_mem_edges he
  have hstate : nfa.state q = nfa.states[q] := by
    rw [state, Array.getElem?_eq_getElem hlt]
    rfl
  rw [hstate] at he
  exact List.mem_flatMap.2 ⟨nfa.states[q], Array.mem_toList_iff.2 (Array.getElem_mem hlt),
    List.mem_map_of_mem he⟩

theorem encloses_silent (h : nfa.WellFormed) (hqs : ∀ q ∈ qs, q < nfa.size) :
    Encloses nfa.silent qs (Finset.range nfa.size) :=
  ⟨fun q hq => Finset.mem_range.2 (hqs q hq), fun q _ t ht => Finset.mem_range.2 (h.silent q t ht)⟩

theorem mem_closure (h : nfa.WellFormed) (hqs : ∀ q ∈ qs, q < nfa.size) :
    t ∈ nfa.closure qs ↔ Reaches nfa.silent qs t := by
  rw [closure, Ascending.mem_ofList, mem_reachable (encloses_silent h hqs)
    (by rw [Finset.card_range])]

theorem closure_congr (h : nfa.WellFormed) {qs' : List Nat} (hqs : ∀ q ∈ qs, q < nfa.size)
    (heq : ∀ q, q ∈ qs ↔ q ∈ qs') : nfa.closure qs = nfa.closure qs' := by
  have hqs' : ∀ q ∈ qs', q < nfa.size := fun q hq => hqs q ((heq q).2 hq)
  have hmem (t : Nat) : t ∈ nfa.closure qs ↔ t ∈ nfa.closure qs' := by
    rw [mem_closure h hqs, mem_closure h hqs']
    simp only [Reaches, heq]
  exact Ascending.ext (Ascending.pairwise_ofList _) (Ascending.pairwise_ofList _) hmem

theorem closure_nil (nfa : Nfa) : nfa.closure [] = [] := by
  rw [closure, reachable, fresh]
  cases nfa.size <;> rfl

theorem lt_of_mem_closure (h : nfa.WellFormed) (hqs : ∀ q ∈ qs, q < nfa.size)
    (ht : t ∈ nfa.closure qs) :
    t < nfa.size :=
  Finset.mem_range.1 ((encloses_silent h hqs).mem ((mem_closure h hqs).1 ht))

theorem mem_targets : t ∈ nfa.targets qs c ↔
    ∃ q ∈ qs, ∃ e ∈ (nfa.state q).edges, e.1.contains c = true ∧ e.2 = t := by
  simp [targets, and_assoc]

theorem lt_of_mem_targets (h : nfa.WellFormed) (ht : t ∈ nfa.targets qs c) : t < nfa.size := by
  obtain ⟨q, -, e, he, -, rfl⟩ := mem_targets.1 ht
  exact h.edge q e he

theorem mem_moves {intervals : List Interval} :
    (i, t) ∈ ((nfa.moves intervals)[q]?.getD []) ↔
      ∃ e ∈ (nfa.state q).edges, i ∈ covering intervals e.1 ∧ e.2 = t := by
  have hmoves : (nfa.moves intervals)[q]?.getD [] =
      (nfa.state q).edges.flatMap fun e => (covering intervals e.1).map (·, e.2) := by
    rw [moves, Array.getElem?_map, state]
    cases nfa.states[q]? <;> rfl
  rw [hmoves]
  simp [eq_comm]

theorem mem_moved {intervals : List Interval} : t ∈ moved (nfa.moves intervals) qs i ↔
    ∃ q ∈ qs, ∃ e ∈ (nfa.state q).edges, i ∈ covering intervals e.1 ∧ e.2 = t := by
  simp only [moved, List.mem_flatMap, List.mem_map, List.mem_filter, decide_eq_true_eq]
  refine exists_congr fun q => and_congr_right fun _ => ?_
  rw [← mem_moves]
  constructor
  · rintro ⟨⟨j, s⟩, ⟨hmem, rfl⟩, rfl⟩
    exact hmem
  · exact fun hmem => ⟨(i, t), ⟨hmem, rfl⟩, rfl⟩

theorem mem_movable {intervals : List Interval} : i ∈ movable (nfa.moves intervals) qs ↔
    ∃ t, t ∈ moved (nfa.moves intervals) qs i := by
  simp only [mem_moved, movable, Ascending.mem_ofList, List.mem_flatMap, List.mem_map]
  constructor
  · rintro ⟨q, hq, ⟨j, t⟩, hmem, rfl⟩
    exact ⟨t, q, hq, mem_moves.1 hmem⟩
  · rintro ⟨t, q, hq, hmem⟩
    exact ⟨q, hq, (i, t), mem_moves.2 hmem, rfl⟩

theorem mem_moved_iff_mem_targets {x : Interval} (hx : (partition nfa.labels)[i]? = some x)
    (hlo : x.lo ≤ c) (hhi : c ≤ x.hi) :
    t ∈ moved (nfa.moves (partition nfa.labels)) qs i ↔ t ∈ nfa.targets qs c := by
  rw [mem_moved, mem_targets]
  refine exists_congr fun q => and_congr_right fun _ => exists_congr fun e =>
    and_congr_right fun he => ?_
  rw [contains_iff_covering (mem_labels he) hx hlo hhi]

theorem exists_interval (ht : t ∈ nfa.targets qs c) :
    ∃ (i : Nat) (x : Interval), (partition nfa.labels)[i]? = some x ∧ x.lo ≤ c ∧ c ≤ x.hi := by
  obtain ⟨q, -, e, he, hc, -⟩ := mem_targets.1 ht
  obtain ⟨x, hx, hlo, hhi⟩ := exists_mem_partition (mem_labels he) hc
  obtain ⟨i, hi⟩ := List.mem_iff_getElem?.1 hx
  exact ⟨i, x, hi, hlo, hhi⟩

def runFrom (nfa : Nfa) (qs cs : List Nat) : List Nat := cs.foldl nfa.step qs

theorem step_nil (nfa : Nfa) (c : Nat) : nfa.step [] c = [] := closure_nil nfa

theorem runFrom_nil (nfa : Nfa) (cs : List Nat) : nfa.runFrom [] cs = [] := by
  induction cs with
  | nil => rfl
  | cons c cs ih => rw [runFrom, List.foldl_cons, step_nil, ← runFrom, ih]

def allSubsets (nfa : Nfa) : List (List Nat) := nfa.subsets (nfa.moves (partition nfa.labels))

theorem mem_sublists_range {n : Nat} {xs : List Nat} (hxs : xs.Pairwise (· < ·))
    (hlt : ∀ x ∈ xs, x < n) :
    xs ∈ (List.range n).sublists := by
  have heq : xs = (List.range n).filter (· ∈ xs) := by
    refine Ascending.ext hxs (List.pairwise_lt_range.filter _) fun x => ?_
    simp only [List.mem_filter, List.mem_range, decide_eq_true_eq]
    exact ⟨fun hx => ⟨hlt x hx, hx⟩, And.right⟩
  rw [List.mem_sublists, heq]
  exact List.filter_sublist

section

variable (h : nfa.WellFormed)

include h

theorem closure_moved_eq_step {x : Interval} (hx : (partition nfa.labels)[i]? = some x)
    (hlo : x.lo ≤ c)
    (hhi : c ≤ x.hi) :
    nfa.closure (moved (nfa.moves (partition nfa.labels)) qs i) = nfa.step qs c := by
  have hmem (t : Nat) : t ∈ moved (nfa.moves (partition nfa.labels)) qs i ↔ t ∈ nfa.targets qs c :=
    mem_moved_iff_mem_targets hx hlo hhi
  exact closure_congr h (fun t ht => lt_of_mem_targets h ((hmem t).1 ht)) hmem

theorem mem_allSubsets {xs : List Nat} : xs ∈ nfa.allSubsets ↔
    Reaches (fun qs => (nfa.successors (nfa.moves (partition nfa.labels)) qs).map (·.2))
      [nfa.startSet] xs := by
  have hclosure {qs : List Nat} (hqs : ∀ q ∈ qs, q < nfa.size) :
      nfa.closure qs ∈ (List.range nfa.size).sublists.toFinset :=
    List.mem_toFinset.2
      (mem_sublists_range (Ascending.pairwise_ofList _) fun t => lt_of_mem_closure h hqs)
  have hencloses :
      Encloses (fun qs => (nfa.successors (nfa.moves (partition nfa.labels)) qs).map (·.2))
      [nfa.startSet] (List.range nfa.size).sublists.toFinset := by
    refine ⟨?_, ?_⟩
    · intro r hr
      obtain rfl := List.mem_singleton.1 hr
      exact hclosure (by simpa using h.start)
    · intro qs _ xs hxs
      obtain ⟨⟨i, xs⟩, hmem, rfl⟩ := List.mem_map.1 hxs
      obtain ⟨i, -, heq⟩ := List.mem_map.1 hmem
      obtain ⟨-, rfl⟩ := Prod.mk.inj heq
      refine hclosure fun t ht => ?_
      obtain ⟨q, -, e, he, -, rfl⟩ := mem_moved.1 ht
      exact h.edge q e he
  have hlength : (List.range nfa.size).sublists.length = 2 ^ nfa.size := by
    rw [List.length_sublists, List.length_range]
  exact mem_reachable hencloses (Nat.le_trans (List.toFinset_card_le _) (Nat.le_of_eq hlength))

theorem step_mem_allSubsets (hqs : qs ∈ nfa.allSubsets) (ht : t ∈ nfa.targets qs c) :
    nfa.step qs c ∈ nfa.allSubsets := by
  obtain ⟨i, x, hx, hlo, hhi⟩ := exists_interval ht
  have hmovable := mem_movable.2 ⟨t, (mem_moved_iff_mem_targets hx hlo hhi).2 ht⟩
  rw [mem_allSubsets h] at hqs ⊢
  refine hqs.step (List.mem_map.2 ⟨(i, nfa.step qs c), List.mem_map.2 ⟨i, hmovable, ?_⟩, rfl⟩)
  rw [closure_moved_eq_step h hx hlo hhi]

end

def found (nfa : Nfa) (qs : List Nat) : List Transition :=
  (movable (nfa.moves (partition nfa.labels)) qs).map fun i =>
    let r := (partition nfa.labels)[i]?.getD default
    ⟨r.lo, r.hi, nfa.allSubsets.idxOf (nfa.closure (moved (nfa.moves (partition nfa.labels)) qs i))⟩

theorem determinize_eq (nfa : Nfa) : nfa.determinize.dfa =
    ⟨(nfa.allSubsets.map fun qs => ⟨Dfa.merged (nfa.found qs), (nfa.kinds qs).head?⟩).toArray⟩ := by
  simp [determinize, allSubsets, subsetState, successors, found, Function.comp_def]

theorem interval_of_movable (hi : i ∈ movable (nfa.moves (partition nfa.labels)) qs) :
    ∃ x, (partition nfa.labels)[i]? = some x := by
  obtain ⟨t, ht⟩ := mem_movable.1 hi
  obtain ⟨-, -, e, -, hcovering, -⟩ := mem_moved.1 ht
  obtain ⟨x, hx, -⟩ := (mem_covering (increasing_partition _)).1 hcovering
  exact ⟨x, hx⟩

theorem ordered_found (nfa : Nfa) (qs : List Nat) : Dfa.Ordered (nfa.found qs) := by
  have hincreasing := increasing_partition nfa.labels
  have hmovable : (movable (nfa.moves (partition nfa.labels)) qs).Pairwise (· < ·) :=
    Ascending.pairwise_ofList _
  refine ⟨List.pairwise_map.2 (hmovable.imp_of_mem fun {i j} hi hj hlt => ?_), fun t ht => ?_⟩
  · obtain ⟨x, hx⟩ := interval_of_movable hi
    obtain ⟨y, hy⟩ := interval_of_movable hj
    obtain ⟨hi', rfl⟩ := List.getElem?_eq_some_iff.1 hx
    obtain ⟨hj', rfl⟩ := List.getElem?_eq_some_iff.1 hy
    simpa [hx, hy] using List.pairwise_iff_getElem.1 hincreasing.apart i j hi' hj' hlt
  · obtain ⟨i, hi, rfl⟩ := List.mem_map.1 ht
    obtain ⟨x, hx⟩ := interval_of_movable hi
    simpa [hx] using hincreasing.nonempty x (List.mem_of_getElem? hx)

theorem leads_found (h : nfa.WellFormed) {p : Nat} : Dfa.Leads (nfa.found qs) c p ↔
    nfa.targets qs c ≠ [] ∧ nfa.allSubsets.idxOf (nfa.step qs c) = p := by
  constructor
  · rintro ⟨u, hu, hlo, hhi, rfl⟩
    obtain ⟨i, hi, rfl⟩ := List.mem_map.1 hu
    obtain ⟨x, hx⟩ := interval_of_movable hi
    simp only [hx, Option.getD_some] at hlo hhi ⊢
    obtain ⟨t, ht⟩ := mem_movable.1 hi
    have ht' := (mem_moved_iff_mem_targets hx hlo hhi).1 ht
    exact ⟨List.ne_nil_of_mem ht', by rw [closure_moved_eq_step h hx hlo hhi]⟩
  · rintro ⟨hne, rfl⟩
    obtain ⟨t, ht⟩ := List.exists_mem_of_ne_nil _ hne
    obtain ⟨i, x, hx, hlo, hhi⟩ := exists_interval ht
    have hmovable := mem_movable.2 ⟨t, (mem_moved_iff_mem_targets hx hlo hhi).2 ht⟩
    refine ⟨_, List.mem_map.2 ⟨i, hmovable, rfl⟩, ?_, ?_, ?_⟩
    · simpa [hx] using hlo
    · simpa [hx] using hhi
    · rw [closure_moved_eq_step h hx hlo hhi]

section

variable (h : nfa.WellFormed)

theorem transitions_determinize (hi : nfa.allSubsets[i]? = some qs) :
    nfa.determinize.dfa.transitions i = Dfa.merged (nfa.found qs) := by
  rw [determinize_eq, Dfa.transitions_map, hi]
  rfl

include h

theorem wellFormed_determinize : nfa.determinize.dfa.WellFormed := by
  have hstate (i : Nat) : nfa.determinize.dfa.transitions i = [] ∨
      ∃ qs ∈ nfa.allSubsets, nfa.determinize.dfa.transitions i = Dfa.merged (nfa.found qs) := by
    cases hi : nfa.allSubsets[i]? with
    | none =>
      left
      rw [determinize_eq, Dfa.transitions_map, hi]
      rfl
    | some qs => exact .inr ⟨qs, List.mem_of_getElem? hi, transitions_determinize hi⟩
  have hsize : nfa.determinize.dfa.size = nfa.allSubsets.length := by
    rw [determinize_eq]
    simp [Dfa.size]
  refine ⟨fun i => ?_, fun i u hu => ?_⟩
  · rcases hstate i with hnil | ⟨qs, -, heq⟩
    · rw [hnil]
      exact .nil
    · rw [heq]
      exact (ordered_found nfa qs).merged
  · rcases hstate i with hnil | ⟨qs, hqs, heq⟩
    · rw [hnil] at hu
      cases hu
    · rw [heq] at hu
      have hordered := ordered_found nfa qs
      have hleads : Dfa.Leads (Dfa.merged (nfa.found qs)) u.lo u.target :=
        ⟨u, hu, Nat.le_refl _, hordered.merged.nonempty u hu, rfl⟩
      obtain ⟨hne, htarget⟩ := (leads_found h).1 ((Dfa.leads_merged hordered).1 hleads)
      obtain ⟨t, ht⟩ := List.exists_mem_of_ne_nil _ hne
      rw [hsize, ← htarget]
      exact List.idxOf_lt_length_iff.2 (step_mem_allSubsets h hqs ht)

theorem next?_determinize (hi : nfa.allSubsets[i]? = some qs) {p : Nat} :
    nfa.determinize.dfa.next? i c = some p ↔
      nfa.targets qs c ≠ [] ∧ nfa.allSubsets.idxOf (nfa.step qs c) = p := by
  rw [Dfa.next?_eq_some ((wellFormed_determinize h).ordered i), transitions_determinize hi,
    Dfa.leads_merged (ordered_found nfa qs), leads_found h]

theorem getElem?_of_next? (hi : nfa.allSubsets[i]? = some qs) {p : Nat}
    (hp : nfa.determinize.dfa.next? i c = some p) :
    nfa.allSubsets[p]? = some (nfa.step qs c) := by
  obtain ⟨hne, rfl⟩ := (next?_determinize h hi).1 hp
  obtain ⟨t, ht⟩ := List.exists_mem_of_ne_nil _ hne
  exact List.getElem?_idxOf (step_mem_allSubsets h (List.mem_of_getElem? hi) ht)

theorem verdict_determinize (hi : nfa.allSubsets[i]? = some qs) (cs : List Nat) :
    nfa.determinize.dfa.verdict i cs = (nfa.kinds (nfa.runFrom qs cs)).head? := by
  induction cs generalizing i qs with
  | nil =>
    rw [Dfa.verdict, determinize_eq, Dfa.accept?_map, hi]
    rfl
  | cons c cs ih =>
    have hrun : nfa.runFrom qs (c :: cs) = nfa.runFrom (nfa.step qs c) cs := rfl
    rw [Dfa.verdict, hrun]
    cases hnext : nfa.determinize.dfa.next? i c with
    | none =>
      -- the empty set has no number: one run ends, the other goes on without states
      have hnil : nfa.targets qs c = [] := by
        by_contra hne
        rw [(next?_determinize h hi).2 ⟨hne, rfl⟩] at hnext
        cases hnext
      rw [step, hnil, closure_nil, runFrom_nil]
      rfl
    | some p => exact ih (getElem?_of_next? h hi hnext)

theorem verdict_determinize_start (cs : List Nat) :
    nfa.determinize.dfa.verdict 0 cs = (nfa.kinds (nfa.runFrom nfa.startSet cs)).head? :=
  verdict_determinize h (getElem?_reachable_zero _ _ _) cs

end

theorem size_determinize_pos (nfa : Nfa) : 0 < nfa.determinize.dfa.size := by
  have hstart : nfa.allSubsets[0]? = some nfa.startSet := getElem?_reachable_zero _ _ _
  have hlt := (List.getElem?_eq_some_iff.1 hstart).1
  rw [determinize_eq]
  simpa [Dfa.size] using hlt

end PredictiveParsing.Nfa
