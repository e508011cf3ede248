import PredictiveParsing.Text.Position

/-!
# Diagnostics

What the analyses report about a grammar. A list of reports is shown sorted by span, kind, message
and severity, so that the order in which the analyses found them does not show.
-/
namespace PredictiveParsing

inductive Severity
  | error
  | warning
  | note
deriving DecidableEq, Ord

def Severity.name : Severity → String
  | error => "error"
  | warning => "warning"
  | note => "note"

namespace Diagnostic

inductive Kind
  | patternSyntax
  | undefinedToken
  | patternReferenceLoop
  | emptyMatchPattern
  | duplicateName
  | undefinedLexicalState
  | undefinedNonTerminal
  | nonTokenReference
  | misplacedLookahead
  | unreachableToken
  | unreachableLexicalState
  | leftRecursion
  | nullableLoopBody
  | nullableOptionalBody
  | lookaheadConflict
  | lookaheadGrowth
deriving DecidableEq, Ord

def Kind.name : Kind → String
  | patternSyntax => "PatternSyntax"
  | undefinedToken => "UndefinedToken"
  | patternReferenceLoop => "PatternReferenceLoop"
  | emptyMatchPattern => "EmptyMatchPattern"
  | duplicateName => "DuplicateName"
  | undefinedLexicalState => "UndefinedLexicalState"
  | undefinedNonTerminal => "UndefinedNonTerminal"
  | nonTokenReference => "NonTokenReference"
  | misplacedLookahead => "MisplacedLookahead"
  | unreachableToken => "UnreachableToken"
  | unreachableLexicalState => "UnreachableLexicalState"
  | leftRecursion => "LeftRecursion"
  | nullableLoopBody => "NullableLoopBody"
  | nullableOptionalBody => "NullableOptionalBody"
  | lookaheadConflict => "LookaheadConflict"
  | lookaheadGrowth => "LookaheadGrowth"

def Kind.severity : Kind → Severity
  | unreachableToken | unreachableLexicalState | nullableOptionalBody | lookaheadConflict => .warning
  | lookaheadGrowth => .note
  | _ => .error

end Diagnostic

structure Diagnostic where
  severity : Severity
  kind : Diagnostic.Kind
  span : Span
  message : String
deriving DecidableEq

namespace Diagnostic

def ofKind (kind : Kind) (span : Span) (message : String) : Diagnostic :=
  ⟨kind.severity, kind, span, message⟩

def order (a b : Diagnostic) : Ordering :=
  (compare a.span b.span).then <| (compare a.kind b.kind).then <|
    (compare a.message b.message).then (compare a.severity b.severity)

/-- For instance `0:4 to 0:9: error: UndefinedToken: undefined token ID`. -/
def display (d : Diagnostic) : String :=
  d.span.display ++ ": " ++ d.severity.name ++ ": " ++ d.kind.name ++ ": " ++ d.message

def count (severity : Severity) (ds : List Diagnostic) : Nat := ds.countP (·.severity = severity)

def anyError (ds : List Diagnostic) : Bool := ds.any (·.severity = .error)

def sorted (ds : List Diagnostic) : List Diagnostic := ds.mergeSort fun a b => (a.order b).isLE

def lines (ds : List Diagnostic) : String := String.join (ds.map (·.display ++ "\n"))

end Diagnostic
end PredictiveParsing
