import PredictiveParsing.Sets.Follow
import PredictiveParsing.Sets.LeftRecursion

/-!
# The sets of a grammar

For every node and production: whether it can be empty, its FIRST set and its FOLLOW set, all for
one bound that is large enough for every choice. Left recursion and bodies that can be empty are
reported on the way.
-/
namespace PredictiveParsing

structure GrammarSets where
  k : Nat
  nullable : Nullable
  first : SetFamily
  follow : SetFamily
  leftRecursive : List Nat
  /-- How many passes each of the three computations took. -/
  nullablePasses : Nat
  firstPasses : Nat
  followPasses : Nat
deriving DecidableEq

namespace GrammarSets

def firstK (s : GrammarSets) (id k : Nat) : SequenceSet := (s.first.node id).truncate k

def followK (s : GrammarSets) (id k : Nat) : SequenceSet := (s.follow.node id).truncate k

def lookahead (s : GrammarSets) (id context k : Nat) : SequenceSet :=
  (s.first.node id).concat (s.follow.node context) k

end GrammarSets

namespace Grammar

def setBound (g : Grammar) : Nat := max (max g.options.maxLookahead g.maxStatedAmount) 1

def checkBodies (g : Grammar) (nullable : Nullable) : List Diagnostic :=
  let loop (id body : Nat) : Option Diagnostic :=
    if nullable.node body then
      some (.ofKind .nullableLoopBody (g.spanOf id)
        s!"loop body in {g.describe id} can match the empty string")
    else none
  g.nodeIds.filterMap fun id =>
    match g.kindOf id with
    | .zeroOrMore body => loop id body
    | .oneOrMore body => loop id body
    | .zeroOrOne body =>
      if nullable.node body then
        some (.ofKind .nullableOptionalBody (g.spanOf id)
          s!"optional body in {g.describe id} can match the empty string")
      else none
    | _ => none

def computeSets (g : Grammar) : GrammarSets × List Diagnostic :=
  let k := g.setBound
  let nullable := Nullable.ofGrammar g
  let cycles := LeftRecursion.cycles g nullable.value
  let first := First.ofGrammar g k
  let follow := Follow.ofGrammar g first.value k
  (⟨k, nullable.value, first.value, follow.value, Ascending.ofList cycles.flatten,
      nullable.passes, first.passes, follow.passes⟩,
    cycles.map (LeftRecursion.report g) ++ g.checkBodies nullable.value)

end Grammar
end PredictiveParsing
