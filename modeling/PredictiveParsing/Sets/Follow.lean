import PredictiveParsing.Sets.First

/-!
# FOLLOW sets

The FOLLOW set of a node holds, cut to `k` tokens, what can come after the node. The end of input
follows the start production and every production that nothing refers to; nothing follows what a
lookahead scans. From there the sets flow from a node to its children and from a reference to the
production it names.
-/
namespace PredictiveParsing.Follow

def referenced (g : Grammar) : List Nat :=
  g.nodes.toList.filterMap fun n =>
    match n.kind with
    | .nonterminal name => (g.production? name).map Production.id
    | _ => none

def endsInput (g : Grammar) (p : Production) : Bool :=
  g.start? = some p.id || !(referenced g).contains p.id

def start (g : Grammar) : SetFamily :=
  g.productions.foldl
    (fun f p => if endsInput g p then f.add (.production p.id) (.token eofKind) else f) (.empty g)

/-- What the items of a sequence are followed by, where `outer` follows the last of them. The first
component is what the items together are followed by if something stands before them. -/
def ofItems (first : SetFamily) (k : Nat) (outer : SequenceSet) :
    List Nat → SequenceSet × List (SetOwner × SequenceSet)
  | [] => (outer, [])
  | i :: items =>
    let (rest, sets) := ofItems first k outer items
    ((first.node i).concat rest k, (.node i, rest) :: sets)

def contributions (g : Grammar) (first : SetFamily) (k : Nat) (outer : SequenceSet) :
    Node.Kind → List (SetOwner × SequenceSet)
  | .sequence items => (ofItems first k outer items).2
  | .choice items => items.map fun i => (.node i, outer)
  | .zeroOrMore body => [(.node body, ((first.node body).kleene k).concat outer k)]
  | .oneOrMore body => [(.node body, ((first.node body).kleene k).concat outer k)]
  | .zeroOrOne body => [(.node body, outer)]
  | .nonterminal name =>
    match g.production? name with
    | some p => [(.production p.id, outer)]
    | none => []
  | .lookahead la =>
    match la.nested with
    | some nested => [(.node nested, .epsilon)]
    | none => []
  | .token _ => []
  | .tokenName _ => []
  | .literal _ => []
  | .action _ => []

def addAll (f : SetFamily) (sets : List (SetOwner × SequenceSet)) : SetFamily :=
  sets.foldl (fun f (owner, s) => f.add owner s) f

def pass (g : Grammar) (first : SetFamily) (k : Nat) (f : SetFamily) : SetFamily :=
  let f := g.productions.foldl (fun f p => f.add (.node p.root) (f.production p.id)) f
  g.nodeIds.reverse.foldl
    (fun f id => addAll f (contributions g first k (f.node id) (g.kindOf id))) f

def ofGrammar (g : Grammar) (first : SetFamily) (k : Nat) : Saturation SetFamily :=
  .run (pass g first k) (SetFamily.rounds g k) (start g)

end PredictiveParsing.Follow
