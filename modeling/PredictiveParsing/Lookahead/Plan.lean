import PredictiveParsing.Lookahead.SequenceSet

/-!
# Lookahead plans

A plan says how a parser decides at one choice. Each alternative has the token sequences that select
it and, where the grammar states its lookahead, a guard. The earliest alternative that accepts what
is upcoming is taken.
-/
namespace PredictiveParsing

structure Guard where
  /-- A predicate that has to hold as well. -/
  semantic : Option String
  scan : Option Nat
  /-- Whether the alternative is taken where the guard fails. -/
  negated : Bool
deriving DecidableEq

structure Alternative where
  /-- The expansion taken; none stands for leaving a loop or an optional part. -/
  expansion : Option Nat
  depth : Nat
  set : SequenceSet
  guard : Option Guard
deriving DecidableEq

inductive Outcome
  /-- No two of the alternatives that were checked share an upcoming text. -/
  | resolved
  /-- Two alternatives share what begins with `shared`, and the earlier one is taken. -/
  | conflict (first second : Nat) (shared : List Nat)
deriving DecidableEq

structure Plan where
  k : Nat
  alternatives : List Alternative
  outcome : Outcome
deriving DecidableEq

namespace Alternative

def isExplicit (a : Alternative) : Bool := a.guard.isSome

/-- Whether the alternative is taken on `upcoming`, and the predicates asked to find out. A
predicate is asked only where the tokens fit. -/
def accepts (holds : String → Bool) (upcoming : List Nat) (a : Alternative) : Bool × List String :=
  let fits := a.set.accepts upcoming
  match a.guard with
  | none => (fits, [])
  | some g =>
    let (ok, asked) := match g.semantic with
      | some code => if fits then (holds code, [code]) else (false, [])
      | none => (fits, [])
    (ok != g.negated, asked)

def select (holds : String → Bool) (upcoming : List Nat) :
    List Alternative → Option Nat × List String
  | [] => (none, [])
  | a :: as =>
    match a.accepts holds upcoming with
    | (true, asked) => (some 0, asked)
    | (false, asked) =>
      let (chosen, later) := select holds upcoming as
      (chosen.map (· + 1), asked ++ later)

end Alternative

namespace Plan

def hasConflict (p : Plan) : Bool := p.outcome != .resolved

def maxDepth (p : Plan) : Nat := p.alternatives.foldl (fun n a => max n a.depth) 0

def selectWith (p : Plan) (holds : String → Bool) (upcoming : List Nat) :
    Option Nat × List String :=
  Alternative.select holds upcoming p.alternatives

def select (p : Plan) (upcoming : List Nat) : Option Nat :=
  (p.selectWith (fun _ => true) upcoming).1

end Plan
end PredictiveParsing
