import PredictiveParsing.Automaton.Dfa
import PredictiveParsing.Automaton.Nfa

/-!
# Subset construction

The states of the deterministic automaton are the sets of states that the nondeterministic one can
be in after some text, numbered in the order in which a breadth-first exploration finds them. From
each of them every elementary interval of the alphabet leads to one set. No transition leads to the
empty set.
-/
namespace PredictiveParsing.Nfa

abbrev Moves := List (Nat × Nat)

def moves (nfa : Nfa) (intervals : List Interval) : Array Moves :=
  nfa.states.map fun q => q.edges.flatMap fun (set, t) => (CharSet.covering intervals set).map (·, t)

def moved (moves : Array Moves) (qs : List Nat) (i : Nat) : List Nat :=
  qs.flatMap fun q => ((moves[q]?.getD []).filter (·.1 = i)).map (·.2)

def movable (moves : Array Moves) (qs : List Nat) : List Nat :=
  Ascending.ofList (qs.flatMap fun q => (moves[q]?.getD []).map (·.1))

def successors (nfa : Nfa) (moves : Array Moves) (qs : List Nat) : List (Nat × List Nat) :=
  (movable moves qs).map fun i => (i, nfa.closure (moved moves qs i))

def subsets (nfa : Nfa) (moves : Array Moves) : List (List Nat) :=
  Exploration.reachable (fun qs => (nfa.successors moves qs).map (·.2)) (Nat.pow 2 nfa.size)
    [nfa.startSet]

def subsetState (nfa : Nfa) (intervals : List Interval) (moves : Array Moves)
    (all : List (List Nat)) (qs : List Nat) : Dfa.State where
  transitions := Dfa.merged <| (nfa.successors moves qs).map fun (i, target) =>
    let r := intervals[i]?.getD default
    ⟨r.lo, r.hi, all.idxOf target⟩
  accept := (nfa.kinds qs).head?

structure Subsets where
  dfa : Dfa
  kinds : List (List Nat)

def determinize (nfa : Nfa) : Subsets :=
  let intervals := CharSet.partition nfa.labels
  let moves := nfa.moves intervals
  let all := nfa.subsets moves
  ⟨⟨(all.map (nfa.subsetState intervals moves all)).toArray⟩, all.map nfa.kinds⟩

end PredictiveParsing.Nfa
