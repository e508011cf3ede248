import PredictiveParsing.Regex.Normal
import PredictiveParsing.Regex.Reader

/-!
# From the written form to the normal form

Flags are applied from left to right; a change lasts to the end of the group it stands in. Where
Unicode is switched off, classes consist of bytes, and an expression that could match a byte above
the ASCII range is refused.
-/
namespace PredictiveParsing.Regex

structure Flags where
  ignoreCase : Bool := false
  multiLine : Bool := false
  dotAll : Bool := false
  swapGreed : Bool := false
  unicode : Bool := true
  crlf : Bool := false

namespace Flags

def set (f : Flags) : Flag × Bool → Flags
  | (.ignoreCase, on) => { f with ignoreCase := on }
  | (.multiLine, on) => { f with multiLine := on }
  | (.dotAll, on) => { f with dotAll := on }
  | (.swapGreed, on) => { f with swapGreed := on }
  | (.unicode, on) => { f with unicode := on }
  | (.crlf, on) => { f with crlf := on }
  | (.extended, _) => f

def apply (f : Flags) (change : FlagChange) : Flags := change.foldl set f

def classKind (f : Flags) : ClassKind := if f.unicode then .unicode else .bytes

def fold (f : Flags) (s : List Interval) : List Interval :=
  if !f.ignoreCase then s
  else if f.unicode then ScalarSet.caseFold s
  else ScalarSet.asciiCaseFold s

def foldNegate (f : Flags) (negated : Bool) (s : List Interval) : Option (List Interval) :=
  let s := f.fold s
  if f.unicode then some (if negated then ScalarSet.negate s else s)
  else if negated || !ScalarSet.isAscii s then none
  else some s

end Flags

def Literal.char? (f : Flags) (l : Literal) : Option Char :=
  if !f.unicode && l.byte && 0x80 ≤ l.char.toNat then none else some l.char

def Literal.member? (f : Flags) (l : Literal) : Option Nat :=
  if !f.unicode && 0x80 ≤ l.char.toNat then none else some l.char.toNat

def NamedClass.ranges : NamedClass → List Interval
  | alnum => [⟨0x30, 0x39⟩, ⟨0x41, 0x5A⟩, ⟨0x61, 0x7A⟩]
  | alpha => [⟨0x41, 0x5A⟩, ⟨0x61, 0x7A⟩]
  | ascii => [⟨0, 0x7F⟩]
  | blank => [⟨0x9, 0x9⟩, ⟨0x20, 0x20⟩]
  | cntrl => [⟨0, 0x1F⟩, ⟨0x7F, 0x7F⟩]
  | digit => [⟨0x30, 0x39⟩]
  | graph => [⟨0x21, 0x7E⟩]
  | lower => [⟨0x61, 0x7A⟩]
  | print => [⟨0x20, 0x7E⟩]
  | punct => [⟨0x21, 0x2F⟩, ⟨0x3A, 0x40⟩, ⟨0x5B, 0x60⟩, ⟨0x7B, 0x7E⟩]
  | space => [⟨0x9, 0xD⟩, ⟨0x20, 0x20⟩]
  | upper => [⟨0x41, 0x5A⟩]
  | word => [⟨0x30, 0x39⟩, ⟨0x41, 0x5A⟩, ⟨0x5F, 0x5F⟩, ⟨0x61, 0x7A⟩]
  | xdigit => [⟨0x30, 0x39⟩, ⟨0x41, 0x46⟩, ⟨0x61, 0x66⟩]

def blankRanges : List Interval :=
  [⟨0x9, 0xD⟩, ⟨0x20, 0x20⟩, ⟨0x85, 0x85⟩, ⟨0xA0, 0xA0⟩, ⟨0x1680, 0x1680⟩, ⟨0x2000, 0x200A⟩,
    ⟨0x2028, 0x2029⟩, ⟨0x202F, 0x202F⟩, ⟨0x205F, 0x205F⟩, ⟨0x3000, 0x3000⟩]

def Shorthand.ranges? (f : Flags) : Shorthand → Option (List Interval)
  | space => some (if f.unicode then blankRanges else NamedClass.space.ranges)
  | digit => if f.unicode then none else some NamedClass.digit.ranges
  | word => if f.unicode then none else some NamedClass.word.ranges

def Shorthand.members? (f : Flags) (s : Shorthand) (negated : Bool) : Option (List Interval) :=
  match s.ranges? f with
  | some rs => if !negated then some rs else if f.unicode then some (ScalarSet.negate rs) else none
  | none => none

def SetOperator.apply : SetOperator → List Interval → List Interval → List Interval
  | intersection => ScalarSet.intersection
  | difference => ScalarSet.difference
  | symmetricDifference => ScalarSet.symmetricDifference

mutual

def ClassBody.members? (f : Flags) : ClassBody → Option (List Interval)
  | .empty => some []
  | .literal l => (l.member? f).map fun c => [⟨c, c⟩]
  | .range lo hi =>
    match lo.member? f, hi.member? f with
    | some lo, some hi => some [⟨lo, hi⟩]
    | _, _ => none
  | .named name negated => f.foldNegate negated name.ranges
  | .shorthand s negated => s.members? f negated
  | .bracketed negated body =>
    match body.members? f with
    | some s => (f.foldNegate negated s).map ScalarSet.ofRanges
    | none => none
  | .union items => (ClassBody.membersOf? f items).map ScalarSet.ofRanges
  | .binary op left right =>
    match left.members? f, right.members? f with
    | some l, some r => some (ScalarSet.ofRanges (op.apply (f.fold l) (f.fold r)))
    | _, _ => none

def ClassBody.membersOf? (f : Flags) : List ClassBody → Option (List Interval)
  | [] => some []
  | b :: bs =>
    match b.members? f, ClassBody.membersOf? f bs with
    | some s, some t => some (s ++ t)
    | _, _ => none

end

def ofBracketed (f : Flags) (negated : Bool) (body : ClassBody) : Option Regex :=
  match body.members? f with
  | some s => (f.foldNegate negated s).map (ofClass f.classKind)
  | none => none

def ofLiteral (f : Flags) (l : Literal) : Option Regex :=
  match l.char? f with
  | none => none
  | some c =>
    if f.ignoreCase && (f.unicode || c.toNat < 0x80) then
      some (ofClass f.classKind (f.fold [⟨c.toNat, c.toNat⟩]))
    else some (.literal [c])

def ofDot (f : Flags) : Option Regex :=
  if !f.unicode then none
  else if f.dotAll then some (.charClass .unicode [⟨0, CharSet.maxCodePoint⟩])
  else if f.crlf then
    some (.charClass .unicode [⟨0, 0x9⟩, ⟨0xB, 0xC⟩, ⟨0xE, CharSet.maxCodePoint⟩])
  else some (.charClass .unicode [⟨0, 0x9⟩, ⟨0xB, CharSet.maxCodePoint⟩])

def Assertion.look (f : Flags) : Assertion → Look
  | startLine => if !f.multiLine then .start else if f.crlf then .startCRLF else .startLF
  | endLine => if !f.multiLine then .endOfText else if f.crlf then .endCRLF else .endLF
  | startText => .start
  | endText => .endOfText
  | wordBoundary => if f.unicode then .wordUnicode else .wordAscii
  | notWordBoundary => if f.unicode then .wordUnicodeNegate else .wordAsciiNegate
  | wordStart => if f.unicode then .wordStartUnicode else .wordStartAscii
  | wordEnd => if f.unicode then .wordEndUnicode else .wordEndAscii
  | wordStartHalf => if f.unicode then .wordStartHalfUnicode else .wordStartHalfAscii
  | wordEndHalf => if f.unicode then .wordEndHalfUnicode else .wordEndHalfAscii

mutual

def ofSurface (f : Flags) : Surface → Option (Regex × Flags)
  | .empty => some (.empty, f)
  | .flags change => some (.empty, f.apply change)
  | .literal l => (ofLiteral f l).map (·, f)
  | .dot => (ofDot f).map (·, f)
  | .assertion a => some (.look (a.look f), f)
  | .shorthand s negated => (s.members? f negated).map fun rs => (ofClass f.classKind rs, f)
  | .bracketed negated body => (ofBracketed f negated body).map (·, f)
  | .repetition min max greedy body =>
    match ofSurface f body with
    | some (r, f') => some (ofRepetition min max (greedy != f'.swapGreed) r, f')
    | none => none
  | .group (.plain change) body => (ofSurface (f.apply change) body).map fun (r, _) => (r, f)
  | .group (.capture index _) body => (ofSurface f body).map fun (r, _) => (.capture index r, f)
  | .concat items => (ofSurfaces f items).map fun (rs, f') => (ofConcat rs, f')
  | .alternation items => (ofSurfaces f items).map fun (rs, f') => (ofAlternation rs, f')

def ofSurfaces (f : Flags) : List Surface → Option (List Regex × Flags)
  | [] => some ([], f)
  | s :: ss =>
    match ofSurface f s with
    | none => none
    | some (r, f') => (ofSurfaces f' ss).map fun (rs, f'') => (r :: rs, f'')

end

def ofString? (text : String) : Option Regex :=
  match Surface.ofString? text with
  | some s => (ofSurface {} s).map (·.1)
  | none => none

end PredictiveParsing.Regex
