/-!
# Saturation

A pass is applied again and again until it changes nothing. How often that can be is bounded by a
power of two whose exponent is given; the bound itself is never computed, as passes are counted out
in stretches of doubling length and the search ends with the first pass without effect.
-/
namespace PredictiveParsing

structure Saturation (α : Type) where
  value : α
  /-- How many passes were made, the one without effect included. -/
  passes : Nat
  settled : Bool

namespace Saturation

variable {α : Type} [DecidableEq α]

def advance (pass : α → α) (s : Saturation α) : Saturation α :=
  if s.settled then s
  else
    let next := pass s.value
    ⟨next, s.passes + 1, next = s.value⟩

def advanceBy (pass : α → α) : (n : Nat) → Saturation α → Saturation α
  | 0, s => s
  | n + 1, s => if s.settled then s else advanceBy pass n (s.advance pass)

def advanceDoubling (pass : α → α) : (rounds n : Nat) → Saturation α → Saturation α
  | 0, _, s => s
  | rounds + 1, n, s =>
    if s.settled then s else advanceDoubling pass rounds (2 * n) (s.advanceBy pass n)

/-- Fewer than `2 ^ rounds` passes, starting from `start`. -/
def run (pass : α → α) (rounds : Nat) (start : α) : Saturation α :=
  advanceDoubling pass rounds 1 ⟨start, 0, false⟩

end Saturation
end PredictiveParsing
