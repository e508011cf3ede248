import PredictiveParsing.Grammar.Declaration

/-!
# Validation

Names are resolved and the places of stated lookahead are checked. A token by name or by text
becomes a token by kind where its definition is handed over to the parser; all else about the tree
stays as it is.
-/
namespace PredictiveParsing.Grammar

def stateReferences (t : TokenDef) : List String :=
  (match t.scope with
    | .only names => names
    | _ => []) ++ t.nextState.toList

def checkStates (g : Grammar) : List Diagnostic :=
  g.tokens.toList.flatMap fun t =>
    ((stateReferences t).filter fun name => (g.states.index? name).isNone).map fun name =>
      .ofKind .undefinedLexicalState t.span
        s!"token {t.name} refers to undefined lexical state {name}"

inductive Resolution
  | token (kind : Nat)
  | fault (kind : Diagnostic.Kind) (message : String)
  | undefinedLiteral (image : String)
  | other

def resolveName (g : Grammar) (name : String) : Resolution :=
  match g.tokenKind? name with
  | none => .fault .undefinedToken s!"undefined token {name}"
  | some kind =>
    let t := g.tokens[kind]?.getD default
    if t.isPrivate then
      .fault .undefinedToken s!"private token {name} cannot be used in a production"
    else if t.disposition = .token then .token kind
    else .fault .nonTokenReference
      s!"token {name} is {t.disposition.name}, not handed to the parser; it cannot be used in a production"

def resolveLiteral (g : Grammar) (image : String) : Resolution :=
  match g.literalDefinition? image with
  | none => .undefinedLiteral image
  | some t =>
    if t.disposition = .token then .token t.kind
    else .fault .nonTokenReference
      s!"string {Quoted.string image} is defined as {t.disposition.name} by token {t.name}; it cannot be used in a production"

def resolution (g : Grammar) : Node.Kind → Resolution
  | .tokenName name => g.resolveName name
  | .literal image => g.resolveLiteral image
  | _ => .other

def resolveNodes (g : Grammar) : List Node → Grammar × List Node × List Diagnostic
  | [] => (g, [], [])
  | n :: ns =>
    match g.resolution n.kind with
    | .other =>
      let (g, ns, ds) := g.resolveNodes ns
      (g, n :: ns, ds)
    | .token kind =>
      let (g, ns, ds) := g.resolveNodes ns
      (g, { n with kind := .token kind } :: ns, ds)
    | .undefinedLiteral image =>
      let kind := g.tokens.size
      let (g, ns, ds) := (g.pushLiteral image n.span).resolveNodes ns
      (g, { n with kind := .token kind } :: ns, ds)
    | .fault kind message =>
      let (g, ns, ds) := g.resolveNodes ns
      (g, n :: ns, .ofKind kind n.span message :: ds)

def resolveTokens (g : Grammar) : Grammar × List Diagnostic :=
  let (g, nodes, ds) := g.resolveNodes g.nodes.toList
  ({ g with nodes := nodes.toArray }, ds)

def checkNonterminals (g : Grammar) : List Diagnostic :=
  g.nodes.toList.filterMap fun n =>
    match n.kind with
    | .nonterminal name =>
      if (g.production? name).isSome then none
      else
        let production := (g.productions[n.production]?.map Production.name).getD "?"
        some (.ofKind .undefinedNonTerminal n.span s!"undefined nonterminal {name} in {production}")
    | _ => none

def isWellPlaced (g : Grammar) (id : Nat) : Bool :=
  match g.nodes[id]?.bind Node.parent with
  | none => false
  | some seq =>
    match g.kindOf seq with
    | .sequence items =>
      items.head? = some id &&
        match g.nodes[seq]?.bind Node.parent with
        | some p => (g.kindOf p).isChoicePoint
        | none => false
    | _ => false

def checkLookahead (g : Grammar) : List Diagnostic :=
  g.nodeIds.filterMap fun id =>
    match g.kindOf id with
    | .lookahead la =>
      if la.amount.isNone && la.semantic.isNone && la.nested.isNone then
        some (.ofKind .misplacedLookahead (g.spanOf id) "lookahead specifies nothing")
      else if g.isWellPlaced id then none
      else
        some (.ofKind .misplacedLookahead (g.spanOf id)
          s!"lookahead is only allowed at the start of an alternative or loop body, found in {g.describe id}")
    | _ => none

def validate (g : Grammar) : Grammar × List Diagnostic :=
  let (resolved, ds) := g.resolveTokens
  (resolved, g.declarationErrors ++ g.checkStates ++ ds ++ resolved.checkNonterminals ++
    resolved.checkLookahead)

end PredictiveParsing.Grammar
