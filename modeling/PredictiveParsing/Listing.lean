import PredictiveParsing.Compilation

/-!
# Listings

What was computed for a grammar, written as text for people: everything in the order of its numbers.
-/
namespace PredictiveParsing

inductive MissingAnalysis
  | lexer
  | sets
deriving DecidableEq

def MissingAnalysis.message : MissingAnalysis → String
  | lexer => "grammar has no lexer tables"
  | sets => "grammar has no closure sets"

def codePointLabel (c : Nat) : String :=
  if 0x21 ≤ c ∧ c ≤ 0x7E then "'" ++ String.singleton (Char.ofNat c) ++ "'"
  else "0x" ++ String.ofList ((Nat.toDigits 16 c).map Char.toUpper)

def Transition.label (t : Transition) : String :=
  let range := if t.lo = t.hi then codePointLabel t.lo
    else codePointLabel t.lo ++ "-" ++ codePointLabel t.hi
  s!"{range}->{t.target}"

def Outcome.label (ofSet : SequenceSet → String) : Outcome → String
  | .resolved => "resolved"
  | .conflict first second shared =>
    s!"conflict between {first + 1} and {second + 1} on {ofSet (.ofSeqs [shared])}"

def Node.Kind.construct : Node.Kind → String
  | .choice _ => "choice"
  | .zeroOrMore _ => "zero-or-more"
  | .oneOrMore _ => "one-or-more"
  | .zeroOrOne _ => "zero-or-one"
  | _ => "expansion"

namespace Grammar

def sequenceLabel (g : Grammar) (s : List Nat) : String :=
  if s.isEmpty then "`empty'" else " ".intercalate (s.map g.tokenName)

def setLabel (g : Grammar) (a : SequenceSet) : String :=
  "\x7b" ++ ", ".intercalate (a.seqs.map g.sequenceLabel) ++ "\x7d"

def stateLine (g : Grammar) (id : Nat) (q : Dfa.State) : String :=
  let accepted := match q.accept with
    | some kind => " accept " ++ g.tokenName kind
    | none => ""
  s!"  {id}:{accepted}" ++ String.join (q.transitions.map (" " ++ ·.label)) ++ "\n"

def automatonListing (g : Grammar) (mode : Nat) (a : LexicalAutomaton) : String :=
  s!"LEXICAL STATE {a.name} ({mode}): {a.nfaStates} nfa states, {a.dfa.size} dfa states\n" ++
  "  tokens: " ++ " ".intercalate (a.tokens.map g.tokenName) ++ "\n" ++
  String.join (a.dfa.states.toList.zipIdx.map fun (q, id) => g.stateLine id q)

def guardLabel (g : Grammar) (guard : Guard) : String :=
  let parts :=
    (guard.semantic.map fun code => "semantic " ++ Quoted.string code).toList ++
    (guard.scan.map fun id => "scan " ++ (g.spanOf id).display).toList ++
    (if guard.negated then ["negated"] else [])
  " guard(" ++ ", ".intercalate parts ++ ")"

def alternativeLine (g : Grammar) (n : Nat) (a : Alternative) : String :=
  let name := if a.expansion.isSome then s!"alt {n + 1}" else "exit"
  let stated := (a.guard.map g.guardLabel).getD ""
  s!"  {name} depth {a.depth}{stated}: {g.setLabel a.set}\n"

def planListing (g : Grammar) (id : Nat) (plan : Option Plan) : String :=
  let head := s!"{(g.kindOf id).construct} {g.describe id}: "
  match plan with
  | none => head ++ "no plan\n"
  | some p =>
    head ++ s!"k={p.k}, {p.outcome.label g.setLabel}\n" ++
      String.join (p.alternatives.zipIdx.map fun (a, n) => g.alternativeLine n a)

end Grammar

namespace AnalyzedGrammar

def lexerListing (a : AnalyzedGrammar) : Except MissingAnalysis String :=
  match a.lexer with
  | none => .error .lexer
  | some l => .ok <| String.join <| l.automata.zipIdx.map fun (m, mode) =>
      a.grammar.automatonListing mode m

def setsListing (a : AnalyzedGrammar) : Except MissingAnalysis String :=
  match a.sets with
  | none => .error .sets
  | some s =>
    let label := a.grammar.setLabel
    .ok <| s!"K = {s.k}\n" ++ String.join (a.grammar.productions.toList.map fun p =>
      s!"FIRST,{p.name},{label (s.first.production p.id)}\n" ++
      s!"FOLLOW,{p.name},{label (s.follow.production p.id)}\n")

def plansListing (a : AnalyzedGrammar) : String :=
  String.join (a.grammar.choicePoints.map fun id => a.grammar.planListing id (a.plan? id))

end AnalyzedGrammar
end PredictiveParsing
