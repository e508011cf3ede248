import PredictiveParsing.Grammar.Basic

/-!
# Inlining of references

A reference stands for the pattern of the definition it names, in which references are inlined in
turn. The definitions under way are kept in order, so that one that leads back to itself is found.
-/
namespace PredictiveParsing

mutual

def Pattern.substitute {ε : Type} (f : String → Except ε Pattern) : Pattern → Except ε Pattern
  | .literal text => .ok (.literal text)
  | .charClass cls => .ok (.charClass cls)
  | .seq items => (Pattern.substituteAll f items).map .seq
  | .alt items => (Pattern.substituteAll f items).map .alt
  | .star body => (body.substitute f).map .star
  | .plus body => (body.substitute f).map .plus
  | .opt body => (body.substitute f).map .opt
  | .rep body min max => (body.substitute f).map (.rep · min max)
  | .ref name => f name

def Pattern.substituteAll {ε : Type} (f : String → Except ε Pattern) :
    List Pattern → Except ε (List Pattern)
  | [] => .ok []
  | p :: ps =>
    match p.substitute f with
    | .error e => .error e
    | .ok p => (Pattern.substituteAll f ps).map (p :: ·)

end

inductive ReferenceError
  | undefined (name : String)
  /-- The names along a cycle of references, the first again at the end. -/
  | cycle (names : List String)
deriving DecidableEq

namespace Grammar

def referent? (g : Grammar) (name : String) : Option Nat :=
  match g.tokenKind? name with
  | some kind => if kind = eofKind then none else some kind
  | none => none

def patternOf (g : Grammar) (kind : Nat) : Pattern := (g.tokens[kind]?.map TokenDef.pattern).getD (.seq [])

/-- The inlined pattern that `name` stands for, where `path` are the definitions under way,
outermost first; `fuel` bounds how deep references may lead. -/
def inlineName (g : Grammar) : (fuel : Nat) → (path : List Nat) → (name : String) →
    Except ReferenceError Pattern
  | 0, _, name => .error (.undefined name)
  | fuel + 1, path, name =>
    match g.referent? name with
    | none => .error (.undefined name)
    | some kind =>
      if path.contains kind then
        .error (.cycle ((path.dropWhile (· ≠ kind)).map g.tokenName ++ [name]))
      else (g.patternOf kind).substitute (g.inlineName fuel (path ++ [kind]))

def inlined (g : Grammar) (t : TokenDef) : Except ReferenceError Pattern :=
  t.pattern.substitute (g.inlineName g.tokens.size [t.kind])

end Grammar
end PredictiveParsing
