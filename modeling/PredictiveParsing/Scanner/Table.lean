/-!
# Scan tables

What a scanner needs to know of the automata it runs. There is one automaton for each mode; its
states and the modes are numbered, and a transition that is missing means that no further character
can lead to a match.
-/
namespace PredictiveParsing

inductive Disposition
  | token
  /-- It is dropped, together with the pending image. -/
  | skip
  /-- Its text is kept as the beginning of the next token's image. -/
  | more
  /-- It is handed over and flagged as insignificant to the grammar. -/
  | special
deriving DecidableEq

def Disposition.name : Disposition → String
  | token => "Token"
  | skip => "Skip"
  | more => "More"
  | special => "Special"

def eofKind : Nat := 0

structure ScanTable where
  initialMode : Nat
  modeName : (mode : Nat) → String
  start : (mode : Nat) → Nat
  next? : (mode state : Nat) → Char → Option Nat
  accept? : (mode state : Nat) → Option Nat
  disposition : (kind : Nat) → Disposition
  nextMode? : (kind : Nat) → Option Nat

end PredictiveParsing
