import PredictiveParsing.Ascending
import PredictiveParsing.CharSet.Basic

/-!
# Partition of the alphabet

The elementary intervals of a list of sets are the coarsest intervals that none of the sets cuts.
They lie between consecutive bounds of the sets, a bound being a point at which membership in some
set may change. Each set is the union of the elementary intervals that it covers.
-/
namespace PredictiveParsing.CharSet

def bounds (sets : List CharSet) : List Nat :=
  Ascending.ofList ((sets.flatMap ranges).flatMap fun r => [r.lo, r.hi + 1])

def stretches (bs : List Nat) : List Interval := (bs.zip bs.tail).map fun (a, b) => ⟨a, b - 1⟩

def partition (sets : List CharSet) : List Interval :=
  let covered := ofRanges (sets.flatMap ranges)
  (stretches (bounds sets)).filter fun r => covered.contains r.lo

def meeting (intervals : List Interval) (r : Interval) : List Nat :=
  let start := bisect (·.hi < r.lo) intervals
  ((intervals.zipIdx.drop start).takeWhile fun (x, _) => x.lo ≤ r.hi).map (·.2)

def covering (intervals : List Interval) (s : CharSet) : List Nat :=
  s.ranges.flatMap (meeting intervals)

end PredictiveParsing.CharSet
