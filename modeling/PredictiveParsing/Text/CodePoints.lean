/-!
# Tables of code points

Two compact forms for the data of a character property. An inversion list gives a set by the code
points at which membership changes. A shift run gives a mapping by an arithmetic progression of code
points that all move by the same distance.
-/
namespace PredictiveParsing

structure InversionList where
  bounds : List Nat

namespace InversionList

def containsFrom (inside : Bool) (c : Nat) : List Nat → Bool
  | [] => inside
  | b :: bounds => if c < b then inside else containsFrom (!inside) c bounds

def contains (s : InversionList) (c : Nat) : Bool := containsFrom false c s.bounds

end InversionList

/-- The code points `first, first + step, …, last`, each mapped to itself plus `shift`. -/
structure ShiftRun where
  first : Nat
  last : Nat
  step : Nat
  shift : Int

namespace ShiftRun

def pairs (r : ShiftRun) : List (Nat × Nat) :=
  (List.range ((r.last - r.first) / r.step + 1)).map fun i =>
    let c := r.first + i * r.step
    (c, (c + r.shift).toNat)

def image? (r : ShiftRun) (c : Nat) : Option Nat :=
  if r.first ≤ c && c ≤ r.last && (c - r.first) % r.step == 0 then some (c + r.shift).toNat
  else none

end ShiftRun

/-- The image of a character under the mapping that the runs give, which leaves a character that is
in none of them as it is. -/
def imageUnder (runs : List ShiftRun) (c : Char) : List Char :=
  match runs.findSome? (·.image? c.toNat) with
  | some d => [Char.ofNat d]
  | none => [c]

end PredictiveParsing
