import PredictiveParsing.Proofs.RuleTables

/-!
# Tables agree with the simulation

Simulating a nondeterministic automaton keeps the set of states that it can be in. The subset
construction gives these sets numbers, so a run of the table and the simulation stay together:
the table is in the state whose number is that of the set. What the table, pruned and minimized or
not, says of the beginnings of a text is then what the simulation says of them, and so is the
longest match. Main statement: `longestMatch_tables`.
-/
namespace PredictiveParsing

namespace Dfa

variable {d : Dfa}

def run? (d : Dfa) : (q : Nat) → List Nat → Option Nat
  | q, [] => some q
  | q, c :: cs => (d.next? q c).bind fun q' => d.run? q' cs

theorem verdict_eq_bind_run? (d : Dfa) (q : Nat) (cs : List Nat) :
    d.verdict q cs = (d.run? q cs).bind d.accept? := by
  induction cs generalizing q with
  | nil => rfl
  | cons c cs ih =>
    rw [verdict, run?, Option.bind_assoc]
    exact Option.bind_congr fun q' _ => ih q'

theorem longestMatch_eq {v : List Nat → Option Nat} (hv : ∀ cs, d.verdict 0 cs = v cs)
    {cs : List Nat} {r : Option (Nat × Nat)} (hr : Longest (fun n => v (cs.take n)) cs.length r) :
    d.longestMatch cs = r := by
  have hlongest := longest_longestMatch d cs
  simp only [hv] at hlongest
  exact hlongest.unique hr

end Dfa

namespace Nfa

open Dfa

variable {nfa : Nfa} {kind : Nat}

def AcceptsAs (nfa : Nfa) (w : List Nat) (kind : Nat) : Prop :=
  ∃ n, Accepts nfa kind n (nfa.state 0) w

/-- `r` is the length of the longest beginning of `cs` that is accepted, with the lowest of the
kinds that it is accepted as. -/
def IsLongestMatch (nfa : Nfa) (cs : List Nat) (r : Option (Nat × Nat)) : Prop :=
  match r with
  | some (n, kind) => n ≤ cs.length ∧ nfa.AcceptsAs (cs.take n) kind ∧
      (∀ k, nfa.AcceptsAs (cs.take n) k → kind ≤ k) ∧
      ∀ m, n < m → m ≤ cs.length → ∀ k, ¬ nfa.AcceptsAs (cs.take m) k
  | none => ∀ m ≤ cs.length, ∀ k, ¬ nfa.AcceptsAs (cs.take m) k

theorem longest_longestFrom {v : Nat → Option Nat} {read : Nat} {best : Option (Nat × Nat)}
    {qs cs : List Nat}
    (hv : ∀ j ≤ cs.length, v (read + j) = (nfa.kinds (nfa.runFrom qs (cs.take j))).head?)
    (hbest : Longest v read best) :
    Longest v (read + cs.length) (nfa.longestFrom read best qs cs) := by
  induction cs generalizing qs read best with
  | nil => exact hbest
  | cons c cs ih =>
    have hrest : ∀ j ≤ cs.length,
        v (read + 1 + j) = (nfa.kinds (nfa.runFrom (nfa.step qs c) (cs.take j))).head? := by
      intro j hj
      rw [Nat.add_assoc, Nat.add_comm 1 j]
      exact hv (j + 1) (Nat.succ_le_succ hj)
    have hnow : v (read + 1) = (nfa.kinds (nfa.step qs c)).head? := hrest 0 (Nat.zero_le _)
    have hlen : read + (c :: cs).length = read + 1 + cs.length := by
      rw [List.length_cons]
      omega
    rw [longestFrom, hlen]
    exact ih hrest (hbest.record hnow)

theorem longest_longestMatch (nfa : Nfa) (cs : List Nat) :
    Longest (fun n => nfa.lowestKind? (cs.take n)) cs.length (nfa.longestMatch cs) := by
  have hstart : Longest (fun n => nfa.lowestKind? (cs.take n)) 0
      ((nfa.kinds nfa.startSet).head?.map (0, ·)) := longest_zero _
  have hverdict : ∀ j ≤ cs.length, nfa.lowestKind? (cs.take (0 + j)) =
      (nfa.kinds (nfa.runFrom nfa.startSet (cs.take j))).head? := by
    intro j _
    rw [Nat.zero_add, lowestKind?]
  have hlongest := longest_longestFrom hverdict hstart
  rwa [Nat.zero_add] at hlongest

section

variable (h : nfa.WellFormed)

include h

theorem mem_kinds_iff_acceptsAs {w : List Nat} :
    kind ∈ nfa.kinds (nfa.runFrom nfa.startSet w) ↔ nfa.AcceptsAs w kind := by
  have hstart : ∀ q ∈ [0], q < nfa.size := by simpa using h.start
  rw [startSet, mem_kinds_runFrom h hstart, AcceptsAs]
  simp only [List.mem_singleton, exists_eq_left]

theorem isLongestMatch_longestMatch (cs : List Nat) :
    nfa.IsLongestMatch cs (nfa.longestMatch cs) := by
  have hnone (w : List Nat) : nfa.lowestKind? w = none ↔ ∀ k, ¬ nfa.AcceptsAs w k := by
    rw [lowestKind?, List.head?_eq_none_iff, List.eq_nil_iff_forall_not_mem]
    simp only [mem_kinds_iff_acceptsAs h]
  have hsome (w : List Nat) (kind : Nat) : nfa.lowestKind? w = some kind ↔
      nfa.AcceptsAs w kind ∧ ∀ k, nfa.AcceptsAs w k → kind ≤ k := by
    rw [lowestKind?, Ascending.head?_eq_some_iff (pairwise_kinds _ _)]
    simp only [mem_kinds_iff_acceptsAs h]
  have hlongest := longest_longestMatch nfa cs
  cases hr : nfa.longestMatch cs with
  | none => simpa only [hr, Longest, IsLongestMatch, hnone] using hlongest
  | some r => simpa only [hr, Longest, IsLongestMatch, hnone, hsome, and_assoc] using hlongest

theorem getElem?_of_run? {i : Nat} {qs : List Nat} (hi : nfa.allSubsets[i]? = some qs)
    {w : List Nat} {s : Nat} (hs : nfa.determinize.dfa.run? i w = some s) :
    nfa.allSubsets[s]? = some (nfa.runFrom qs w) := by
  induction w generalizing i qs with
  | nil =>
    obtain rfl := Option.some.inj hs
    exact hi
  | cons c w ih =>
    obtain ⟨p, hp, hrest⟩ := Option.bind_eq_some_iff.1 hs
    exact ih (getElem?_of_next? h hi hp) hrest

theorem kinds_of_run? {w : List Nat} {s : Nat} (hs : nfa.determinize.dfa.run? 0 w = some s) :
    nfa.determinize.kinds[s]? = some (nfa.kinds (nfa.runFrom nfa.startSet w)) := by
  have hstart : nfa.allSubsets[0]? = some nfa.startSet := Exploration.getElem?_reachable_zero _ _ _
  have hkinds : nfa.determinize.kinds = nfa.allSubsets.map nfa.kinds := rfl
  rw [hkinds, List.getElem?_map, getElem?_of_run? h hstart hs, Option.map_some]

end

/-- The table of the subset construction finds the longest match that the simulation finds, and so
do the pruned and the minimized table. A state of the first that some text leads to has the kinds
that the text is accepted as. -/
theorem longestMatch_tables {nfa : Nfa} (h : nfa.WellFormed) :
    (∀ cs : List Nat,
      nfa.IsLongestMatch cs (nfa.longestMatch cs) ∧
      nfa.determinize.dfa.longestMatch cs = nfa.longestMatch cs ∧
      nfa.determinize.dfa.prune.longestMatch cs = nfa.longestMatch cs ∧
      nfa.determinize.dfa.prune.minimize.longestMatch cs = nfa.longestMatch cs) ∧
    ∀ (w : List Nat) (s : Nat), nfa.determinize.dfa.run? 0 w = some s →
      ∃ kinds, nfa.determinize.kinds[s]? = some kinds ∧ kinds.Pairwise (· < ·) ∧
        ∀ kind, kind ∈ kinds ↔ nfa.AcceptsAs w kind := by
  have hdfa := wellFormed_determinize h
  have hdeterminize := verdict_determinize_start h
  have hprune (cs : List Nat) : nfa.determinize.dfa.prune.verdict 0 cs = nfa.lowestKind? cs := by
    rw [verdict_prune hdfa (size_determinize_pos nfa), hdeterminize, lowestKind?]
  have hminimize := verdict_minimalTable h
  constructor
  · intro cs
    have hlongest := longest_longestMatch nfa cs
    exact ⟨isLongestMatch_longestMatch h cs, longestMatch_eq hdeterminize hlongest,
      longestMatch_eq hprune hlongest, longestMatch_eq hminimize hlongest⟩
  · intro w s hs
    exact ⟨_, kinds_of_run? h hs, pairwise_kinds _ _, fun _ => mem_kinds_iff_acceptsAs h⟩

/-- A silent cycle through the start, two labels that share a letter, and two kinds for one text. -/
def silentCycle : Nfa where
  states := #[
    { silent := [1] },
    { silent := [0, 2], edges := [(.ofRanges [⟨97, 98⟩], 3)] },
    { edges := [(.ofRanges [⟨98, 99⟩], 0)] },
    { silent := [4], accept := some 5 },
    { accept := some 2 }]

theorem wellFormed_silentCycle : silentCycle.WellFormed := by
  have hbelow : ∀ s ∈ silentCycle.states.toList,
      (∀ t ∈ s.silent, t < 5) ∧ ∀ e ∈ s.edges, e.2 < 5 := by decide
  have hstate (q : Nat) :
      (∀ t ∈ silentCycle.silent q, t < 5) ∧ ∀ e ∈ (silentCycle.state q).edges, e.2 < 5 := by
    rw [silent, state]
    cases hq : silentCycle.states[q]? with
    | none => simp
    | some s => exact hbelow s (Array.mem_toList_iff.2 (Array.mem_of_getElem? hq))
  exact ⟨by decide, fun q => (hstate q).1, fun q => (hstate q).2⟩

theorem longestMatch_tables_silentCycle :
    silentCycle.determinize.dfa.prune.minimize.longestMatch [99, 98, 98, 97, 120] = some (4, 2) ∧
      ∀ kind, kind ∈ [2, 5] ↔ silentCycle.AcceptsAs [99, 97] kind := by
  have hsimulation : silentCycle.longestMatch [99, 98, 98, 97, 120] = some (4, 2) := by
    decide +kernel
  obtain ⟨hlongest, hkinds⟩ := longestMatch_tables wellFormed_silentCycle
  constructor
  · rw [(hlongest _).2.2.2, hsimulation]
  · have hrun : silentCycle.determinize.dfa.run? 0 [99, 97] = some 1 := by decide +kernel
    have hfound : silentCycle.determinize.kinds[1]? = some [2, 5] := by decide +kernel
    obtain ⟨kinds, heq, -, hmem⟩ := hkinds _ _ hrun
    rw [hfound] at heq
    rwa [← Option.some.inj heq] at hmem

end Nfa
end PredictiveParsing
