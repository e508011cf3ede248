import PredictiveParsing.CharSet.Basic
import PredictiveParsing.Text.Case

/-!
# Sets of scalar values

The sets that classes of a regular expression denote. They are kept as increasing lists of intervals
that neither overlap nor touch, like every set of code points, but the neighbours of a character
skip the surrogates: the one before U+E000 is U+D7FF.
-/
namespace PredictiveParsing.Regex.ScalarSet

def succ (c : Nat) : Nat := if c = 0xD7FF then 0xE000 else c + 1

def pred (c : Nat) : Nat := if c = 0xE000 then 0xD7FF else c - 1

def ofRanges (rs : List Interval) : List Interval := (CharSet.ofRanges rs).ranges

def union (s t : List Interval) : List Interval := ofRanges (s ++ t)

def between (a b : Nat) : Interval := ⟨min a b, max a b⟩

def gapsAfter (last : Nat) : List Interval → List Interval
  | [] => if last < CharSet.maxCodePoint then [⟨succ last, CharSet.maxCodePoint⟩] else []
  | r :: rs => between (succ last) (pred r.lo) :: gapsAfter r.hi rs

/-- The gaps between the intervals of `s`. Where U+D7FF and U+E000 end and begin two intervals,
nothing lies between them, and the gap comes out as the two themselves. -/
def negate : List Interval → List Interval
  | [] => [⟨0, CharSet.maxCodePoint⟩]
  | r :: rs => if 0 < r.lo then ⟨0, pred r.lo⟩ :: gapsAfter r.hi rs else gapsAfter r.hi rs

def meet? (r s : Interval) : Option Interval :=
  let lo := max r.lo s.lo
  let hi := min r.hi s.hi
  if lo ≤ hi then some ⟨lo, hi⟩ else none

def intersection (s t : List Interval) : List Interval := s.flatMap fun r => t.filterMap (meet? r)

def cut (r : Interval) : List Interval → List Interval
  | [] => [r]
  | x :: xs =>
    if x.hi < r.lo then cut r xs
    else if r.hi < x.lo then [r]
    else
      let left := if r.lo < x.lo then [⟨r.lo, pred x.lo⟩] else []
      if x.hi < r.hi then left ++ cut ⟨succ x.hi, r.hi⟩ xs else left

def difference (s t : List Interval) : List Interval := s.flatMap (cut · t)

def symmetricDifference (s t : List Interval) : List Interval :=
  difference (union s t) (intersection s t)

def insertAll (s : List Interval) (cs : List Nat) : List Interval :=
  ofRanges (s ++ cs.map fun c => ⟨c, c⟩)

def caseFold (s : List Interval) : List Interval :=
  let contains (s : List Interval) (c : Nat) : Bool := s.any (·.contains c)
  let s := insertAll s ((foldPairs.filter fun p => contains s p.1).map (·.2))
  insertAll s ((foldPairs.filter fun p => contains s p.2).map (·.1))

def asciiCaseFold (s : List Interval) : List Interval :=
  let shift (from' to' : Nat) (r : Interval) : List Interval :=
    ((meet? r ⟨from', from' + 25⟩).map fun m => ⟨m.lo - from' + to', m.hi - from' + to'⟩).toList
  ofRanges (s ++ s.flatMap (shift 0x61 0x41) ++ s.flatMap (shift 0x41 0x61))

def isAscii (s : List Interval) : Bool := s.all (·.hi < 0x80)

end PredictiveParsing.Regex.ScalarSet
