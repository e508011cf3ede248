import PredictiveParsing.Ascending
import PredictiveParsing.CharSet.Partition
import PredictiveParsing.Graph.Exploration

/-!
# Nondeterministic automata

States are numbered and state 0 is the start. A state may have silent edges, edges labelled with
sets of code points, and a kind that it accepts. A set of states is the ascending list of their
numbers.
-/
namespace PredictiveParsing

structure Nfa.State where
  silent : List Nat := []
  edges : List (CharSet × Nat) := []
  accept : Option Nat := none
deriving Inhabited

structure Nfa where
  states : Array Nfa.State

namespace Nfa

def size (nfa : Nfa) : Nat := nfa.states.size

def state (nfa : Nfa) (q : Nat) : State := nfa.states[q]?.getD {}

def silent (nfa : Nfa) (q : Nat) : List Nat := (nfa.state q).silent

def closure (nfa : Nfa) (qs : List Nat) : List Nat :=
  Ascending.ofList (Exploration.reachable nfa.silent nfa.size qs)

def startSet (nfa : Nfa) : List Nat := nfa.closure [0]

def targets (nfa : Nfa) (qs : List Nat) (c : Nat) : List Nat :=
  qs.flatMap fun q => ((nfa.state q).edges.filter fun e => e.1.contains c).map (·.2)

def step (nfa : Nfa) (qs : List Nat) (c : Nat) : List Nat := nfa.closure (nfa.targets qs c)

def kinds (nfa : Nfa) (qs : List Nat) : List Nat :=
  Ascending.ofList (qs.filterMap fun q => (nfa.state q).accept)

def labels (nfa : Nfa) : List CharSet := nfa.states.toList.flatMap fun q => q.edges.map (·.1)

def longestFrom (nfa : Nfa) (read : Nat) (best : Option (Nat × Nat)) (qs : List Nat) :
    List Nat → Option (Nat × Nat)
  | [] => best
  | c :: cs =>
    let next := nfa.step qs c
    let best := match (nfa.kinds next).head? with
      | some kind => some (read + 1, kind)
      | none => best
    longestFrom nfa (read + 1) best next cs

def longestMatch (nfa : Nfa) (cs : List Nat) : Option (Nat × Nat) :=
  nfa.longestFrom 0 ((nfa.kinds nfa.startSet).head?.map (0, ·)) nfa.startSet cs

end Nfa
end PredictiveParsing
