import PredictiveParsing.Bisection
import PredictiveParsing.CharSet.Intervals

/-!
# Sets of code points

A set is a separated list of intervals, so that equal sets are equal lists and a code point is found
by halving. Code points are natural numbers; the alphabet proper ends at `maxCodePoint`.
-/
namespace PredictiveParsing

structure CharSet where
  ranges : List Interval
  separated : CharSet.Separated ranges
deriving DecidableEq

namespace CharSet

/-- No cased letter lies above this code point. -/
def casedLimit : Nat := 0x1FFFF

def empty : CharSet := ⟨[], .nil⟩

instance : Inhabited CharSet := ⟨empty⟩

def single (c : Nat) : CharSet := ⟨[⟨c, c⟩], .singleton (Nat.le_refl c)⟩

def isEmpty (s : CharSet) : Bool := s.ranges.isEmpty

/-- The interval that `c` lies in, found by halving: it can only be the last of those that begin no
later than `c`. -/
def find? (s : CharSet) (c : Nat) : Option Interval :=
  s.ranges[bisect (·.lo ≤ c) s.ranges - 1]?.filter (·.contains c)

def contains (s : CharSet) (c : Nat) : Bool := (s.find? c).isSome

def ofRanges (rs : List Interval) : CharSet := ⟨merged rs, .merged rs⟩

def negate (s : CharSet) : CharSet :=
  ⟨gaps 0 s.ranges, s.separated.gaps fun r _ => Nat.zero_le r.lo⟩

/-- The images of `c` that are one other character. Longer images, such as the two letters of the
capital sharp s, are not forms of `c`. -/
def caseForms (lower upper : Char → List Char) (c : Char) : List Char :=
  ([lower c, upper c].filter fun image => image.length = 1).flatten.filter (· ≠ c)

def casedChars (r : Interval) : List Char :=
  ((List.range' r.lo (min r.hi casedLimit + 1 - r.lo)).filter (·.isValidChar)).map Char.ofNat

def caseFold (lower upper : Char → List Char) (s : CharSet) : CharSet :=
  let extra := (s.ranges.flatMap casedChars).flatMap (caseForms lower upper)
  if extra.isEmpty then s else ofRanges (s.ranges ++ extra.map fun d => ⟨d.toNat, d.toNat⟩)

def compareRanges (s t : CharSet) : Ordering := compareOn ranges s t

end CharSet
end PredictiveParsing
