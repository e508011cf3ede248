import PredictiveParsing.Ascending
import PredictiveParsing.Sets.Nullable

/-!
# Left recursion

A production leads to another if the other can begin what it derives, with nothing but nullable
parts before it. Productions on a cycle of such steps are left-recursive. The cycles are found by a
depth-first search that reports every step back to a production on its path.
-/
namespace PredictiveParsing.LeftRecursion

def leading (nullable : Nullable) : List Nat → List Nat
  | [] => []
  | i :: items => if nullable.node i then i :: leading nullable items else [i]

def leftmost (g : Grammar) (nullable : Nullable) : (fuel : Nat) → (id : Nat) → List Nat
  | 0, _ => []
  | fuel + 1, id =>
    match g.kindOf id with
    | .sequence items => (leading nullable items).flatMap (leftmost g nullable fuel)
    | .choice items => items.flatMap (leftmost g nullable fuel)
    | .zeroOrMore body => leftmost g nullable fuel body
    | .oneOrMore body => leftmost g nullable fuel body
    | .zeroOrOne body => leftmost g nullable fuel body
    | .nonterminal name => ((g.production? name).map Production.id).toList
    | _ => []

def edges (g : Grammar) (nullable : Nullable) (p : Nat) : List Nat :=
  match g.productions[p]? with
  | some p => Ascending.ofList (leftmost g nullable (g.nodes.size + 1) p.root)
  | none => []

structure Search where
  done : List Nat
  /-- The cycles found, each from the production that the last step leads back to. -/
  cycles : List (List Nat)

def visit (edges : Nat → List Nat) : (fuel : Nat) → (path : List Nat) → (p : Nat) → Search → Search
  | 0, _, _, s => s
  | fuel + 1, path, p, s =>
    let path := p :: path
    let s := (edges p).foldl (fun s q =>
      if path.contains q then
        { s with cycles := s.cycles ++ [(path.takeWhile (· ≠ q) ++ [q]).reverse] }
      else if s.done.contains q then s
      else visit edges fuel path q s) s
    { s with done := p :: s.done }

def search (edges : Nat → List Nat) (count : Nat) : Search :=
  (List.range count).foldl
    (fun s p => if s.done.contains p then s else visit edges count [] p s) ⟨[], []⟩

def cycles (g : Grammar) (nullable : Nullable) : List (List Nat) :=
  (search (edges g nullable) g.productions.size).cycles

def productionName (g : Grammar) (p : Nat) : String :=
  (g.productions[p]?.map Production.name).getD "?"

def report (g : Grammar) (cycle : List Nat) : Diagnostic :=
  let p := cycle.head?.getD 0
  let names := " -> ".intercalate ((cycle ++ [p]).map (productionName g))
  .ofKind .leftRecursion ((g.productions[p]?.map Production.span).getD .none)
    s!"production {productionName g p} is left-recursive: {names}"

end PredictiveParsing.LeftRecursion
