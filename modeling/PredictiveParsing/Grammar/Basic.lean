import PredictiveParsing.Diagnostic
import PredictiveParsing.Options
import PredictiveParsing.Pattern.Basic
import PredictiveParsing.Scanner.Table
import PredictiveParsing.Symbols

/-!
# Grammars

A grammar has token definitions numbered by kind, lexical states of which the first is the initial
one, and productions whose right-hand sides are trees of nodes. All nodes stand in one array; a
node's children come before it and know it as their parent. Tokens and productions are found by name
through their name tables.
-/
namespace PredictiveParsing

inductive StateScope
  | initial
  | all
  | only (names : List String)
deriving DecidableEq

structure TokenDef where
  name : String
  kind : Nat
  pattern : Pattern
  scope : StateScope
  nextState : Option String
  disposition : Disposition
  /-- Whether only other patterns may refer to the definition. -/
  isPrivate : Bool
  /-- Overrides the option of the grammar. -/
  ignoreCase : Option Bool
  /-- Whether the definition was made for a literal in a production. -/
  anonymous : Bool
  span : Span

def TokenDef.eof : TokenDef where
  name := "EOF"
  kind := eofKind
  pattern := .seq []
  scope := .only []
  nextState := none
  disposition := .token
  isPrivate := false
  ignoreCase := none
  anonymous := false
  span := .none

instance : Inhabited TokenDef := ⟨.eof⟩

def TokenDef.ofLiteral (kind : Nat) (image : String) (span : Span) : TokenDef where
  name := Quoted.string image
  kind := kind
  pattern := .literal image
  scope := .initial
  nextState := none
  disposition := .token
  isPrivate := false
  ignoreCase := none
  anonymous := true
  span := span

def TokenDef.isActiveIn (t : TokenDef) (state initial : String) : Bool :=
  if t.isPrivate || t.kind == eofKind then false
  else match t.scope with
    | .initial => state == initial
    | .all => true
    | .only names => names.contains state

def TokenDef.isLiteral (t : TokenDef) (image : String) : Bool :=
  match t.pattern with
  | .literal text => text == image
  | _ => false

structure StatedLookahead where
  amount : Option Nat
  semantic : Option String
  /-- The node that is scanned ahead. -/
  nested : Option Nat
  negated : Bool
deriving DecidableEq

inductive Node.Kind
  | sequence (items : List Nat)
  | choice (items : List Nat)
  | zeroOrMore (body : Nat)
  | oneOrMore (body : Nat)
  | zeroOrOne (body : Nat)
  | nonterminal (name : String)
  | token (kind : Nat)
  /-- A token by its name, before names are resolved. -/
  | tokenName (name : String)
  /-- A token by its text, before names are resolved. -/
  | literal (image : String)
  | action (code : String)
  | lookahead (la : StatedLookahead)
deriving DecidableEq, Inhabited

namespace Node.Kind

def isChoicePoint : Node.Kind → Bool
  | choice _ | zeroOrMore _ | oneOrMore _ | zeroOrOne _ => true
  | _ => false

def children : Node.Kind → List Nat
  | sequence items => items
  | choice items => items
  | zeroOrMore body => [body]
  | oneOrMore body => [body]
  | zeroOrOne body => [body]
  | lookahead la => la.nested.toList
  | _ => []

end Node.Kind

structure Node where
  kind : Node.Kind
  span : Span
  parent : Option Nat
  production : Nat
deriving DecidableEq, Inhabited

def Node.linkTo (n : Node) (parent : Nat) : Node := { n with parent := some parent }

structure Production where
  name : String
  id : Nat
  root : Nat
  resultType : Option String
  span : Span
deriving DecidableEq, Inhabited

def Numbered {α : Type} (number : α → Nat) (xs : Array α) : Prop :=
  ∀ i x, xs[i]? = some x → number x = i

theorem Numbered.empty {α : Type} (number : α → Nat) : Numbered number #[] := by
  intro i x h
  simp at h

theorem Numbered.push {α : Type} {number : α → Nat} {xs : Array α} (h : Numbered number xs) {x : α}
    (hx : number x = xs.size) : Numbered number (xs.push x) := by
  intro i y hy
  rw [Array.getElem?_push] at hy
  split at hy
  · next hi => rw [← Option.some.inj hy, hx, hi]
  · exact h i y hy

structure Grammar where
  options : Options
  tokens : Array TokenDef
  tokenNames : Symbols
  states : Symbols
  stateSpans : List Span
  productions : Array Production
  productionNames : Symbols
  nodes : Array Node
  declarationErrors : List Diagnostic
  tokens_numbered : Numbered TokenDef.kind tokens
  productions_numbered : Numbered Production.id productions

namespace Grammar

def defaultState : String := "DEFAULT"

def empty (options : Options) : Grammar where
  options := options
  tokens := #[.eof]
  tokenNames := Symbols.empty.push "EOF"
  states := .empty
  stateSpans := []
  productions := #[]
  productionNames := .empty
  nodes := #[]
  declarationErrors := []
  tokens_numbered := (Numbered.empty _).push rfl
  productions_numbered := .empty _

def kindOf (g : Grammar) (id : Nat) : Node.Kind := (g.nodes[id]?.map Node.kind).getD (.sequence [])

def spanOf (g : Grammar) (id : Nat) : Span := (g.nodes[id]?.map Node.span).getD .none

def nodeIds (g : Grammar) : List Nat := List.range g.nodes.size

def choicePoints (g : Grammar) : List Nat := g.nodeIds.filter fun id => (g.kindOf id).isChoicePoint

def production? (g : Grammar) (name : String) : Option Production :=
  g.productionNames.index? name >>= fun i => g.productions[i]?

def start? (g : Grammar) : Option Nat := if g.productions.isEmpty then none else some 0

def tokenKind? (g : Grammar) (name : String) : Option Nat := g.tokenNames.index? name

def tokenName (g : Grammar) (kind : Nat) : String := (g.tokens[kind]?.map TokenDef.name).getD "?"

def initialState (g : Grammar) : String := (g.states.name? 0).getD defaultState

def activeTokens (g : Grammar) (state : String) : List Nat :=
  (g.tokens.toList.filter fun t => t.isActiveIn state g.initialState).map TokenDef.kind

def literalDefinition? (g : Grammar) (image : String) : Option TokenDef :=
  g.tokens.toList.find? fun t => t.isLiteral image && t.isActiveIn g.initialState g.initialState

def literalToken? (g : Grammar) (image : String) : Option Nat :=
  match g.literalDefinition? image with
  | some t => if t.disposition = .token then some t.kind else none
  | none => none

def maxStatedAmount (g : Grammar) : Nat :=
  g.nodes.foldl (fun n node => match node.kind with
    | .lookahead la => max n (la.amount.getD 0)
    | _ => n) 0

def subtreeWithin (g : Grammar) : (fuel : Nat) → (id : Nat) → List Nat
  | 0, id => [id]
  | fuel + 1, id => id :: (g.kindOf id).children.flatMap (g.subtreeWithin fuel)

def subtree (g : Grammar) (id : Nat) : List Nat := g.subtreeWithin g.nodes.size id

def describe (g : Grammar) (id : Nat) : String :=
  let production := (g.nodes[id]?.map Node.production).getD 0
  (g.productions[production]?.map Production.name).getD "?" ++ " at " ++ (g.spanOf id).display

end Grammar
end PredictiveParsing
