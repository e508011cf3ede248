import PredictiveParsing.Automaton.Fragment
import PredictiveParsing.Automaton.Minimal
import PredictiveParsing.Automaton.Subset
import PredictiveParsing.Lexer.Inlining
import PredictiveParsing.Lexer.Tables

/-!
# Building the lexer

Every definition's pattern is checked and its references inlined; then each lexical state gets the
automaton of the definitions active in it. Definitions that can never win a match, and lexical
states that no match leads to, are reported. A definition in error is reported once, and then there
are no tables.
-/
namespace PredictiveParsing.Grammar

def usablePattern (g : Grammar) (t : TokenDef) : Except Diagnostic Pattern :=
  match t.pattern.fault? with
  | some e => .error (.ofKind .patternSyntax t.span s!"token {t.name}: {e.message}")
  | none =>
    match g.inlined t with
    | .error (.undefined name) =>
      .error (.ofKind .undefinedToken t.span s!"token {t.name} refers to undefined token {name}")
    | .error (.cycle names) =>
      let cycle := " -> ".intercalate names
      .error (.ofKind .patternReferenceLoop t.span s!"token {t.name} refers to itself: {cycle}")
    | .ok p =>
      if !t.isPrivate && p.matchesEmpty then
        .error (.ofKind .emptyMatchPattern t.span s!"token {t.name} matches the empty string")
      else .ok p

def definitionFault? (g : Grammar) (t : TokenDef) : Option Diagnostic :=
  if t.kind = eofKind then none
  else match g.usablePattern t with
    | .error d => some d
    | .ok _ => none

def rules (g : Grammar) (state : String) : List Nfa.Rule :=
  (g.activeTokens state).filterMap fun kind =>
    match g.tokens[kind]? with
    | none => none
    | some t =>
      match g.usablePattern t with
      | .ok p => some ⟨kind, p, t.ignoreCase.getD g.options.ignoreCase⟩
      | .error _ => none

/-- The report on a definition that never wins a match in `state`. The definition that wins in the
first set of states where it could have is named, if there is one. -/
def unreachableToken (g : Grammar) (state : String) (subsets : Nfa.Subsets) (kind : Nat) : Diagnostic :=
  let winner := (subsets.kinds.find? fun kinds => kinds.contains kind).bind List.head?
  let because := match winner with
    | some winner => s!": {g.tokenName winner} matches the same input first"
    | none => ""
  let span := (g.tokens[kind]?.map TokenDef.span).getD .none
  .ofKind .unreachableToken span
    s!"token {g.tokenName kind} can never be matched in lexical state {state}{because}"

def buildAutomaton (g : Grammar) (state : String) : LexicalAutomaton × List Diagnostic :=
  let rules := g.rules state
  let nfa := Nfa.ofRules rules
  let subsets := nfa.determinize
  let pruned := subsets.dfa.prune
  let dfa := if g.options.minimize then pruned.minimize else pruned
  let accepted := dfa.acceptedKinds
  let lost := (rules.map Nfa.Rule.kind).filter fun kind => !accepted.contains kind
  (⟨state, g.activeTokens state, nfa.size, dfa⟩, lost.map (g.unreachableToken state subsets))

def nextStates (g : Grammar) (state : Nat) : List Nat :=
  match g.states.name? state with
  | none => []
  | some name =>
    (g.activeTokens name).filterMap fun kind =>
      (g.tokens[kind]?.bind TokenDef.nextState).bind g.states.index?

def reachedStates (g : Grammar) : List Nat :=
  if g.states.isEmpty then [] else Exploration.reachable g.nextStates g.states.size [0]

def checkStateReachability (g : Grammar) : List Diagnostic :=
  let reached := g.reachedStates
  g.states.names.zipIdx.filterMap fun (name, s) =>
    if reached.contains s then none
    else some (.ofKind .unreachableLexicalState (g.stateSpans[s]?.getD .none)
      s!"lexical state {name} cannot be reached from {g.initialState}")

def buildLexer (g : Grammar) : Option Lexer × List Diagnostic :=
  let faults := g.tokens.toList.filterMap g.definitionFault?
  let unreached := g.checkStateReachability
  if faults.isEmpty then
    let built := g.states.names.map g.buildAutomaton
    (some {
      automata := built.map (·.1)
      dispositions := g.tokens.toList.map TokenDef.disposition
      nextStates := g.tokens.toList.map fun t => t.nextState.bind g.states.index? },
      unreached ++ built.flatMap (·.2))
  else (none, faults ++ unreached)

end PredictiveParsing.Grammar
