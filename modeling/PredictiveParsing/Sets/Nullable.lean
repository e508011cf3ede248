import PredictiveParsing.Grammar.Basic
import PredictiveParsing.Graph.Saturation

/-!
# What can be empty

A node is nullable if it derives the empty text, a production if its root is. Both are found by
passes over all nodes and then all productions, starting from nothing and adding what follows from
the part found so far.
-/
namespace PredictiveParsing

structure Nullable where
  nodes : Array Bool
  productions : Array Bool
deriving DecidableEq

namespace Nullable

def none (g : Grammar) : Nullable :=
  ⟨Array.replicate g.nodes.size false, Array.replicate g.productions.size false⟩

def node (n : Nullable) (id : Nat) : Bool := n.nodes[id]?.getD false

def production (n : Nullable) (id : Nat) : Bool := n.productions[id]?.getD false

def markNode (n : Nullable) (id : Nat) (value : Bool) : Nullable :=
  { n with nodes := n.nodes.modify id (· || value) }

def markProduction (n : Nullable) (id : Nat) (value : Bool) : Nullable :=
  { n with productions := n.productions.modify id (· || value) }

def ofKind (g : Grammar) (n : Nullable) : Node.Kind → Bool
  | .sequence items => items.all n.node
  | .choice items => items.any n.node
  | .zeroOrMore _ => true
  | .oneOrMore body => n.node body
  | .zeroOrOne _ => true
  | .nonterminal name => (g.production? name).any fun p => n.production p.id
  | .token _ => false
  | .tokenName _ => false
  | .literal _ => false
  | .action _ => true
  | .lookahead _ => true

def pass (g : Grammar) (n : Nullable) : Nullable :=
  let n := g.nodeIds.foldl (fun n id => n.markNode id (n.ofKind g (g.kindOf id))) n
  g.productions.foldl (fun n p => n.markProduction p.id (n.node p.root)) n

def ofGrammar (g : Grammar) : Saturation Nullable :=
  .run (pass g) (g.nodes.size + g.productions.size + 2) (none g)

end Nullable
end PredictiveParsing
