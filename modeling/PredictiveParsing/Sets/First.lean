import PredictiveParsing.Grammar.Basic
import PredictiveParsing.Graph.Saturation
import PredictiveParsing.Lookahead.SequenceSet

/-!
# FIRST sets

The FIRST set of a node holds, cut to `k` tokens, what the node derives. The sets of all nodes and
productions grow together, in passes over all nodes and then all productions, until they satisfy the
equation of every node.
-/
namespace PredictiveParsing

structure SetFamily where
  nodes : Array SequenceSet
  productions : Array SequenceSet
deriving DecidableEq

inductive SetOwner
  | node (id : Nat)
  | production (id : Nat)
deriving DecidableEq

namespace SetFamily

def empty (g : Grammar) : SetFamily :=
  ⟨Array.replicate g.nodes.size .empty, Array.replicate g.productions.size .empty⟩

def node (f : SetFamily) (id : Nat) : SequenceSet := f.nodes[id]?.getD .empty

def production (f : SetFamily) (id : Nat) : SequenceSet := f.productions[id]?.getD .empty

def add (f : SetFamily) (owner : SetOwner) (s : SequenceSet) : SetFamily :=
  match owner with
  | .node id => { f with nodes := f.nodes.modify id (·.union s) }
  | .production id => { f with productions := f.productions.modify id (·.union s) }

/-- A bound on the logarithm of the number of passes. A set has sequences of at most `k` tokens over
the kinds that occur, and each pass but the last adds to one of the sets. -/
def rounds (g : Grammar) (k : Nat) : Nat := (g.nodes.size + g.productions.size + 2) * (k + 2)

end SetFamily

namespace First

def ofKind (g : Grammar) (k : Nat) (f : SetFamily) : Node.Kind → SequenceSet
  | .sequence items => items.foldl (fun acc i => acc.concat (f.node i) k) .epsilon
  | .choice items => items.foldl (fun acc i => acc.union (f.node i)) .empty
  | .zeroOrMore body => (f.node body).kleene k
  | .oneOrMore body => (f.node body).concat ((f.node body).kleene k) k
  | .zeroOrOne body => (f.node body).union .epsilon
  | .nonterminal name =>
    match g.production? name with
    | some p => f.production p.id
    | none => .empty
  | .token kind => .token kind
  | .tokenName _ => .empty
  | .literal _ => .empty
  | .action _ => .epsilon
  | .lookahead _ => .epsilon

def pass (g : Grammar) (k : Nat) (f : SetFamily) : SetFamily :=
  let f := g.nodeIds.foldl (fun f id => f.add (.node id) (ofKind g k f (g.kindOf id))) f
  g.productions.foldl (fun f p => f.add (.production p.id) (f.node p.root)) f

def ofGrammar (g : Grammar) (k : Nat) : Saturation SetFamily :=
  .run (pass g k) (SetFamily.rounds g k) (.empty g)

end First
end PredictiveParsing
