import PredictiveParsing.CharSet.Basic
import PredictiveParsing.Text.Quoted

/-!
# Token patterns

A pattern describes the texts of a token: literal text, character classes, sequences, alternatives,
repetitions, and references to the patterns of other tokens. A pattern is well formed when no class
is empty or has a range that runs backwards and no repetition asks for more copies than
`repeatLimit` or for a maximum below its minimum.
-/
namespace PredictiveParsing

inductive ClassItem
  | char (c : Char)
  | range (lo hi : Char)
deriving DecidableEq

def ClassItem.interval : ClassItem → Interval
  | char c => ⟨c.toNat, c.toNat⟩
  | range lo hi => ⟨lo.toNat, hi.toNat⟩

structure CharClass where
  items : List ClassItem
  negated : Bool
deriving DecidableEq

def CharClass.charSet (cls : CharClass) : CharSet :=
  let s := CharSet.ofRanges (cls.items.map ClassItem.interval)
  if cls.negated then s.negate else s

inductive Pattern
  | literal (text : String)
  | charClass (cls : CharClass)
  | seq (items : List Pattern)
  | alt (items : List Pattern)
  | star (body : Pattern)
  | plus (body : Pattern)
  | opt (body : Pattern)
  | rep (body : Pattern) (min : Nat) (max : Option Nat)
  | ref (name : String)
deriving Inhabited

inductive PatternError
  | regexSyntax (pattern : String)
  | invertedRange (lo hi : Char)
  | emptyClass
  | badRepeat (min max : Nat)
  | repeatTooLarge (bound : Nat)
  | unsupported (construct : String)
deriving DecidableEq

def repeatLimit : Nat := 1000

def PatternError.message : PatternError → String
  | regexSyntax pattern => s!"cannot parse pattern {Quoted.string pattern}"
  | invertedRange lo hi => s!"inverted character range {Quoted.char lo}-{Quoted.char hi}"
  | emptyClass => "character class matches nothing"
  | badRepeat min max => s!"repetition \x7b{min},{max}\x7d has min greater than max"
  | repeatTooLarge bound => s!"repetition bound {bound} exceeds the limit of {repeatLimit}"
  | unsupported construct => s!"unsupported pattern construct: {construct}"

namespace Pattern

mutual

/-- Whether the pattern matches the empty text, where references count as not empty. -/
def matchesEmpty : Pattern → Bool
  | literal text => text.isEmpty
  | charClass _ => false
  | seq items => allMatchEmpty items
  | alt items => anyMatchesEmpty items
  | star _ => true
  | plus body => body.matchesEmpty
  | opt _ => true
  | rep body min _ => min == 0 || body.matchesEmpty
  | ref _ => false

def allMatchEmpty : List Pattern → Bool
  | [] => true
  | p :: ps => p.matchesEmpty && allMatchEmpty ps

def anyMatchesEmpty : List Pattern → Bool
  | [] => false
  | p :: ps => p.matchesEmpty || anyMatchesEmpty ps

end

mutual

def references : Pattern → List String
  | literal _ => []
  | charClass _ => []
  | seq items => referencesOf items
  | alt items => referencesOf items
  | star body => body.references
  | plus body => body.references
  | opt body => body.references
  | rep body _ _ => body.references
  | ref name => [name]

def referencesOf : List Pattern → List String
  | [] => []
  | p :: ps => p.references ++ referencesOf ps

end

def invertedRange? : List ClassItem → Option PatternError
  | [] => none
  | .char _ :: items => invertedRange? items
  | .range lo hi :: items => if hi < lo then some (.invertedRange lo hi) else invertedRange? items

def classFault? (cls : CharClass) : Option PatternError :=
  match invertedRange? cls.items with
  | some e => some e
  | none => if cls.items.isEmpty && !cls.negated then some .emptyClass else none

def boundsFault? (min : Nat) (max : Option Nat) : Option PatternError :=
  let bound := Nat.max (max.getD min) min
  if repeatLimit < bound then some (.repeatTooLarge bound)
  else match max with
    | some max => if max < min then some (.badRepeat min max) else none
    | none => none

mutual

def fault? : Pattern → Option PatternError
  | literal _ => none
  | charClass cls => classFault? cls
  | seq items => firstFault? items
  | alt items => firstFault? items
  | star body => body.fault?
  | plus body => body.fault?
  | opt body => body.fault?
  | rep body min max =>
    match boundsFault? min max with
    | some e => some e
    | none => body.fault?
  | ref _ => none

def firstFault? : List Pattern → Option PatternError
  | [] => none
  | p :: ps =>
    match p.fault? with
    | some e => some e
    | none => firstFault? ps

end

end Pattern
end PredictiveParsing
