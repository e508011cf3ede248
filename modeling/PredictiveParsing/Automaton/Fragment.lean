import PredictiveParsing.Automaton.Nfa
import PredictiveParsing.Pattern.Basic
import PredictiveParsing.Text.Case

/-!
# Automata of patterns

The states of a pattern are laid out one after another from a given number on. A fragment begins in
its first state and ends in one of its states, whose contents are given from outside: what lies
behind the end is said where the fragment is laid out, and nothing is changed afterwards. A counted
repetition is its body laid out again for every copy.
-/
namespace PredictiveParsing

namespace Pattern

mutual

def stateCount : Pattern → Nat
  | literal text => text.toList.length + 1
  | charClass _ => 2
  | seq items => stateCounts items + 1
  | alt items => stateCounts items + 2
  | star body => body.stateCount + 2
  | plus body => 2 * body.stateCount + 2
  | opt body => body.stateCount + 2
  | rep body min none => (min + 1) * body.stateCount + 2
  | rep body min (some max) => (min + (max - min)) * body.stateCount + 2
  | ref _ => 2

def stateCounts : List Pattern → Nat
  | [] => 0
  | p :: ps => p.stateCount + stateCounts ps

end

end Pattern

namespace Nfa

def letterSet (ignoreCase : Bool) (c : Char) : CharSet :=
  if ignoreCase then (CharSet.single c.toNat).caseFold lowerCase upperCase else .single c.toNat

def classSet (ignoreCase : Bool) (cls : CharClass) : CharSet :=
  if ignoreCase then cls.charSet.caseFold lowerCase upperCase else cls.charSet

def literalStates (ignoreCase : Bool) (last : State) : (base : Nat) → List Char → List State
  | _, [] => [last]
  | base, c :: cs =>
    { edges := [(letterSet ignoreCase c, base + 1)] } :: literalStates ignoreCase last (base + 1) cs

/-- A way of laying out the states of one pattern: from a number on, ending in a state with the
given contents. -/
structure Layout where
  size : Nat
  states : (base : Nat) → (last : State) → List State

structure Tail where
  contents : State
  states : List State

namespace Layout

def copies (l : Layout) (tail : Nat → Tail) : (n : Nat) → (base : Nat) → Tail
  | 0, base => tail base
  | n + 1, base =>
    let rest := l.copies tail n (base + l.size)
    ⟨{ silent := [base] }, l.states base rest.contents ++ rest.states⟩

def loop (l : Layout) (last : State) (base : Nat) : Tail :=
  let hub : State := { last with silent := (base + 1) :: last.silent }
  ⟨{ silent := [base] }, hub :: l.states (base + 1) { silent := [base] }⟩

def optionals (l : Layout) (exit : Nat) : (n : Nat) → (base : Nat) → Tail
  | 0, _ => ⟨{ silent := [exit] }, []⟩
  | n + 1, base =>
    let rest := l.optionals exit n (base + l.size)
    ⟨{ silent := [base, exit] }, l.states base rest.contents ++ rest.states⟩

def repeated (l : Layout) (min : Nat) (max : Option Nat) (base : Nat) (last : State) : List State :=
  let tail := match max with
    | none => l.loop last
    | some max => fun base =>
      let rest := l.optionals base (max - min) (base + 1)
      ⟨rest.contents, last :: rest.states⟩
  let all := l.copies tail min (base + 1)
  all.contents :: all.states

end Layout

mutual

/-- The states of a pattern from `base` on; the end of the fragment has the contents `last`. A
reference matches nothing. -/
def fragment (ignoreCase : Bool) : Pattern → (base : Nat) → (last : State) → List State
  | .literal text, base, last => literalStates ignoreCase last base text.toList
  | .charClass cls, base, last =>
    let set := classSet ignoreCase cls
    [{ edges := if set.isEmpty then [] else [(set, base + 1)] }, last]
  | .seq items, base, last =>
    let tail := sequenceTail ignoreCase items (base + 1) last
    tail.contents :: tail.states
  | .alt items, base, last =>
    let (starts, states) := branches ignoreCase items (base + 1) (base + 2)
    { silent := starts } :: last :: states
  | .star body, base, last =>
    Layout.repeated ⟨body.stateCount, fragment ignoreCase body⟩ 0 none base last
  | .plus body, base, last =>
    Layout.repeated ⟨body.stateCount, fragment ignoreCase body⟩ 1 none base last
  | .opt body, base, last =>
    Layout.repeated ⟨body.stateCount, fragment ignoreCase body⟩ 0 (some 1) base last
  | .rep body min max, base, last =>
    Layout.repeated ⟨body.stateCount, fragment ignoreCase body⟩ min max base last
  | .ref _, _, last => [{}, last]

def sequenceTail (ignoreCase : Bool) : List Pattern → (base : Nat) → (last : State) → Tail
  | [], _, last => ⟨last, []⟩
  | p :: ps, base, last =>
    let rest := sequenceTail ignoreCase ps (base + p.stateCount) last
    ⟨{ silent := [base] }, fragment ignoreCase p base rest.contents ++ rest.states⟩

def branches (ignoreCase : Bool) :
    List Pattern → (exit : Nat) → (base : Nat) → List Nat × List State
  | [], _, _ => ([], [])
  | p :: ps, exit, base =>
    let (starts, states) := branches ignoreCase ps exit (base + p.stateCount)
    (base :: starts, fragment ignoreCase p base { silent := [exit] } ++ states)

end

structure Rule where
  kind : Nat
  pattern : Pattern
  ignoreCase : Bool

def ruleStates : List Rule → (base : Nat) → List Nat × List State
  | [], _ => ([], [])
  | r :: rs, base =>
    let (starts, states) := ruleStates rs (base + r.pattern.stateCount)
    (base :: starts, fragment r.ignoreCase r.pattern base { accept := some r.kind } ++ states)

def ofRules (rules : List Rule) : Nfa :=
  let (starts, states) := ruleStates rules 1
  ⟨({ silent := starts } :: states : List State).toArray⟩

end Nfa
end PredictiveParsing
