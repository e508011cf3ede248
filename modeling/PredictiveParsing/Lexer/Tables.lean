import PredictiveParsing.Automaton.Dfa
import PredictiveParsing.Scanner.Table

/-!
# Lexer tables

One automaton for each lexical state, and for each kind what becomes of its matches and where they
lead. The tables are what a scanner runs; what they do not cover has no transitions and changes
nothing.
-/
namespace PredictiveParsing

structure LexicalAutomaton where
  name : String
  tokens : List Nat
  /-- How many states the nondeterministic automaton had. -/
  nfaStates : Nat
  dfa : Dfa
deriving DecidableEq

structure Lexer where
  automata : List LexicalAutomaton
  dispositions : List Disposition
  nextStates : List (Option Nat)
deriving DecidableEq

namespace Lexer

def automaton? (l : Lexer) (name : String) : Option LexicalAutomaton :=
  l.automata.find? (·.name == name)

def disposition (l : Lexer) (kind : Nat) : Disposition := l.dispositions[kind]?.getD .token

def nextMode? (l : Lexer) (kind : Nat) : Option Nat := l.nextStates[kind]?.join

def modeName (l : Lexer) (mode : Nat) : String := (l.automata[mode]?.map LexicalAutomaton.name).getD "?"

def next? (l : Lexer) (mode state : Nat) (c : Char) : Option Nat :=
  l.automata[mode]?.bind fun a => a.dfa.next? state c.toNat

def accept? (l : Lexer) (mode state : Nat) : Option Nat :=
  l.automata[mode]?.bind fun a => a.dfa.accept? state

def scanTable (l : Lexer) : ScanTable where
  initialMode := 0
  modeName := l.modeName
  start _ := 0
  next? := l.next?
  accept? := l.accept?
  disposition := l.disposition
  nextMode? := l.nextMode?

end Lexer
end PredictiveParsing
