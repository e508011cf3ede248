import PredictiveParsing.Grammar.Basic
import PredictiveParsing.Grammar.Expr

/-!
# Declarations

A grammar is built from declarations of lexical states, tokens and productions, in order. Tokens are
numbered as they are declared, and a literal in a production is given a token of its own there
unless one is defined already. A name that is declared again leaves the grammar as it was, apart
from a report. Whether names refer to anything is not looked at here.

The body of a production is lowered to nodes, the parts of an expression before the expression. A
part has no link to what it is a part of until that is appended. The span of a located expression
replaces that of the surroundings; a location has no node of its own.
-/
namespace PredictiveParsing

structure TokenDecl where
  name : String
  pattern : Pattern
  scope : StateScope := .initial
  nextState : Option String := none
  disposition : Disposition := .token
  isPrivate : Bool := false
  ignoreCase : Option Bool := none
  span : Span := .none

def TokenDecl.define (d : TokenDecl) (kind : Nat) : TokenDef where
  name := d.name
  kind := kind
  pattern := d.pattern
  scope := d.scope
  nextState := d.nextState
  disposition := d.disposition
  isPrivate := d.isPrivate
  ignoreCase := d.ignoreCase
  anonymous := false
  span := d.span

inductive Declaration
  | state (name : String) (span : Span)
  | token (decl : TokenDecl)
  | production (name : String) (resultType : Option String) (span : Span) (body : Expr)

namespace Grammar

def declareState (g : Grammar) (name : String) (span : Span) : Grammar :=
  match g.states.add name with
  | (states, _, true) => { g with states := states, stateSpans := g.stateSpans ++ [span] }
  | _ => g

def reportDuplicate (g : Grammar) (span : Span) (message : String) : Grammar :=
  { g with declarationErrors := g.declarationErrors ++ [.ofKind .duplicateName span message] }

def pushToken (g : Grammar) (t : TokenDef) (h : t.kind = g.tokens.size) : Grammar :=
  { g with
    tokenNames := (g.tokenNames.add t.name).1
    tokens := g.tokens.push t
    tokens_numbered := g.tokens_numbered.push h }

def pushLiteral (g : Grammar) (image : String) (span : Span) : Grammar :=
  g.pushToken (.ofLiteral g.tokens.size image span) rfl

def claimLiteral (g : Grammar) (image : String) (span : Span) : Grammar :=
  match g.literalDefinition? image with
  | some _ => g
  | none => g.pushLiteral image span

/-- The token that a production's literal owns already where `t` defines the same text. -/
def literalClash? (g : Grammar) (t : TokenDef) : Option (String × TokenDef) :=
  match t.pattern with
  | .literal image =>
    match g.literalDefinition? image with
    | some owner =>
      if owner.anonymous && t.isActiveIn g.initialState g.initialState then some (image, owner)
      else none
    | none => none
  | _ => none

def declareToken (g : Grammar) (d : TokenDecl) : Grammar :=
  match g.tokenNames.index? d.name with
  | some i =>
    let earlier := (g.tokens[i]?.map TokenDef.span).getD .none
    g.reportDuplicate d.span s!"token {d.name} is already defined at {earlier.display}"
  | none =>
    let t := d.define g.tokens.size
    match g.literalClash? t with
    | some (image, owner) =>
      g.reportDuplicate d.span
        s!"string {Quoted.string image} of token {d.name} is already used in a production at {owner.span.display}"
    | none => g.pushToken t rfl

def pushNode (g : Grammar) (kind : Node.Kind) (span : Span) (production : Nat) : Grammar × Nat :=
  let id := g.nodes.size
  let nodes := kind.children.foldl (fun ns child => ns.modify child (·.linkTo id)) g.nodes
  ({ g with nodes := nodes.push ⟨kind, span, none, production⟩ }, id)

mutual

def lower (production : Nat) : Expr → Span → Grammar → Grammar × Nat
  | .seq items, span, g =>
    let (g, ids) := lowerAll production items span g
    g.pushNode (.sequence ids) span production
  | .choice items, span, g =>
    let (g, ids) := lowerAll production items span g
    g.pushNode (.choice ids) span production
  | .star body, span, g =>
    let (g, id) := lower production body span g
    g.pushNode (.zeroOrMore id) span production
  | .plus body, span, g =>
    let (g, id) := lower production body span g
    g.pushNode (.oneOrMore id) span production
  | .opt body, span, g =>
    let (g, id) := lower production body span g
    g.pushNode (.zeroOrOne id) span production
  | .nonterminal name, span, g => g.pushNode (.nonterminal name) span production
  | .token name, span, g => g.pushNode (.tokenName name) span production
  | .literal image, span, g => (g.claimLiteral image span).pushNode (.literal image) span production
  | .action code, span, g => g.pushNode (.action code) span production
  | .lookahead amount semantic none negated, span, g =>
    g.pushNode (.lookahead ⟨amount, semantic, none, negated⟩) span production
  | .lookahead amount semantic (some nested) negated, span, g =>
    let (g, id) := lower production nested span g
    g.pushNode (.lookahead ⟨amount, semantic, some id, negated⟩) span production
  | .located span body, _, g => lower production body span g

def lowerAll (production : Nat) : List Expr → Span → Grammar → Grammar × List Nat
  | [], _, g => (g, [])
  | e :: es, span, g =>
    let (g, id) := lower production e span g
    let (g, ids) := lowerAll production es span g
    (g, id :: ids)

end

def declareProduction (g : Grammar) (name : String) (resultType : Option String) (span : Span)
    (body : Expr) : Grammar :=
  match g.productionNames.add name with
  | (_, i, false) =>
    let earlier := (g.productions[i]?.map Production.span).getD .none
    g.reportDuplicate span s!"production {name} is already defined at {earlier.display}"
  | (names, _, true) =>
    let (g, root) := lower g.productions.size body span g
    { g with
      productionNames := names
      productions := g.productions.push ⟨name, g.productions.size, root, resultType, span⟩
      productions_numbered := g.productions_numbered.push rfl }

def declare (g : Grammar) : Declaration → Grammar
  | .state name span => g.declareState name span
  | .token decl => g.declareToken decl
  | .production name resultType span body => g.declareProduction name resultType span body

def finish (g : Grammar) : Grammar :=
  if g.states.isEmpty then
    { g with states := g.states.push defaultState, stateSpans := g.stateSpans ++ [.none] }
  else g

def ofDeclarations (options : Options) (ds : List Declaration) : Grammar :=
  (ds.foldl declare (empty options)).finish

end Grammar
end PredictiveParsing
