import PredictiveParsing.Ascending
import PredictiveParsing.Bisection

/-!
# Deterministic automata

States are numbered and state 0 is the start. A state has transitions on disjoint intervals in
increasing order; where none applies the automaton is dead. Two transitions that touch and lead to
the same state are written as one.
-/
namespace PredictiveParsing

structure Transition where
  lo : Nat
  hi : Nat
  target : Nat
deriving DecidableEq, Inhabited

structure Dfa.State where
  transitions : List Transition := []
  accept : Option Nat := none
deriving DecidableEq, Inhabited

structure Dfa where
  states : Array Dfa.State
deriving DecidableEq, Inhabited

namespace Dfa

def size (d : Dfa) : Nat := d.states.size

def consMerged (t : Transition) : List Transition → List Transition
  | [] => [t]
  | u :: us => if t.target = u.target ∧ t.hi + 1 = u.lo then { t with hi := u.hi } :: us else t :: u :: us

def merged (ts : List Transition) : List Transition := ts.foldr consMerged []

def retarget (rename : Nat → Option Nat) (ts : List Transition) : List Transition :=
  merged (ts.filterMap fun t => (rename t.target).map fun target => { t with target := target })

def transitions (d : Dfa) (q : Nat) : List Transition := (d.states[q]?.map State.transitions).getD []

def accept? (d : Dfa) (q : Nat) : Option Nat := d.states[q]?.bind State.accept

def next? (d : Dfa) (q c : Nat) : Option Nat :=
  match (d.transitions q)[bisect (·.hi < c) (d.transitions q)]? with
  | none => none
  | some t => if t.lo ≤ c then some t.target else none

def acceptedKinds (d : Dfa) : List Nat := Ascending.ofList (d.states.toList.filterMap State.accept)

def longestFrom (d : Dfa) (read : Nat) (best : Option (Nat × Nat)) (q : Nat) :
    List Nat → Option (Nat × Nat)
  | [] => best
  | c :: cs =>
    match d.next? q c with
    | none => best
    | some q =>
      let best := match d.accept? q with
        | some kind => some (read + 1, kind)
        | none => best
      d.longestFrom (read + 1) best q cs

def longestMatch (d : Dfa) (cs : List Nat) : Option (Nat × Nat) :=
  d.longestFrom 0 ((d.accept? 0).map (0, ·)) 0 cs

end Dfa
end PredictiveParsing
