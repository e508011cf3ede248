import PredictiveParsing.Automaton.Dfa
import PredictiveParsing.Graph.Exploration

/-!
# Pruning and minimization

States from which nothing is accepted are dropped, states that accept the same texts are joined, and
what remains is numbered in the order of a breadth-first exploration along the transitions, so that
the table shows nothing of how it was found.
-/
namespace PredictiveParsing.Dfa

def targets (d : Dfa) (q : Nat) : List Nat := (d.transitions q).map (·.target)

/-- Numbers the states reachable from `start` through states that are kept, in the order of
discovery, and drops all others. The start is kept in any case. -/
def renumber (d : Dfa) (start : Nat) (keep : Nat → Bool) : Dfa :=
  let order := Exploration.reachable (fun q => (d.targets q).filter keep) d.size [start]
  let rename (q : Nat) : Option Nat := if keep q then order.idxOf? q else none
  ⟨(order.map fun q => ⟨retarget rename (d.transitions q), d.accept? q⟩).toArray⟩

def predecessors (d : Dfa) (q : Nat) : List Nat :=
  (List.range d.size).filter fun p => (d.targets p).contains q

def live (d : Dfa) : List Nat :=
  Exploration.reachable d.predecessors d.size
    ((List.range d.size).filter fun q => (d.accept? q).isSome)

def prune (d : Dfa) : Dfa :=
  let live := d.live
  d.renumber 0 live.contains

structure Blocks where
  ofState : Array Nat
  count : Nat

def Blocks.block (b : Blocks) (q : Nat) : Nat := b.ofState[q]?.getD 0

abbrev Numbering (κ : Type) := Array (List (κ × Nat))

namespace Numbering

variable {κ : Type} [DecidableEq κ]

def number? (seen : Numbering κ) (block : Nat) (key : κ) : Option Nat :=
  (seen[block]?.getD []).lookup key

/-- Gives equal pairs equal numbers, where those in `seen` have theirs already and `count` numbers
are in use. Returns how many are in use in the end as well. -/
def classify (seen : Numbering κ) (count : Nat) : List (Nat × κ) → List Nat × Nat
  | [] => ([], count)
  | (block, key) :: pairs =>
    match seen.number? block key with
    | some i =>
      let (numbers, total) := classify seen count pairs
      (i :: numbers, total)
    | none =>
      let (numbers, total) := classify (seen.modify block ((key, count) :: ·)) (count + 1) pairs
      (count :: numbers, total)

def divide (size : Nat) (pairs : List (Nat × κ)) : Blocks :=
  let (numbers, count) := classify (Array.replicate size []) 0 pairs
  ⟨numbers.toArray, count⟩

end Numbering

def blockTransitions (b : Blocks) (ts : List Transition) : List Transition :=
  retarget (fun q => some (b.block q)) ts

def acceptBlocks (d : Dfa) : Blocks := Numbering.divide 1 (d.states.toList.map fun q => (0, q.accept))

def refine (d : Dfa) (b : Blocks) : Blocks :=
  Numbering.divide b.count <|
    (List.range d.size).map fun q => (b.block q, blockTransitions b (d.transitions q))

def refineFully (d : Dfa) : (fuel : Nat) → Blocks → Blocks
  | 0, b => b
  | fuel + 1, b =>
    let next := d.refine b
    if next.count = b.count then next else d.refineFully fuel next

def quotient (d : Dfa) (b : Blocks) : Dfa :=
  let state (i : Nat) : State :=
    match (List.range d.size).find? fun q => b.block q = i with
    | some q => ⟨blockTransitions b (d.transitions q), d.accept? q⟩
    | none => {}
  ⟨((List.range b.count).map state).toArray⟩

/-- Joins the states that accept the same texts, for an automaton without dead states. -/
def minimize (d : Dfa) : Dfa :=
  if d.size = 0 then d
  else
    let b := d.refineFully d.size d.acceptBlocks
    (d.quotient b).renumber (b.block 0) fun _ => true

end PredictiveParsing.Dfa
