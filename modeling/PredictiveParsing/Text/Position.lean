/-!
# Positions and spans

A position is a zero-based line and column of a source text. A span is the half-open stretch between
two positions. Positions are ordered by line and then by column; spans by start and then by end.
-/
namespace PredictiveParsing

structure Position where
  line : Nat
  column : Nat
deriving DecidableEq, Ord, Inhabited

namespace Position

def origin : Position := ⟨0, 0⟩

instance : LT Position :=
  ⟨fun p q => p.line < q.line ∨ p.line = q.line ∧ p.column < q.column⟩

instance : LE Position :=
  ⟨fun p q => p.line < q.line ∨ p.line = q.line ∧ p.column ≤ q.column⟩

instance (p q : Position) : Decidable (p < q) :=
  inferInstanceAs (Decidable (p.line < q.line ∨ p.line = q.line ∧ p.column < q.column))

instance (p q : Position) : Decidable (p ≤ q) :=
  inferInstanceAs (Decidable (p.line < q.line ∨ p.line = q.line ∧ p.column ≤ q.column))

theorem lt_def {p q : Position} :
    p < q ↔ p.line < q.line ∨ p.line = q.line ∧ p.column < q.column := Iff.rfl

theorem le_def {p q : Position} :
    p ≤ q ↔ p.line < q.line ∨ p.line = q.line ∧ p.column ≤ q.column := Iff.rfl

instance : Min Position := ⟨fun p q => if p ≤ q then p else q⟩

instance : Max Position := ⟨fun p q => if p ≤ q then q else p⟩

def next (p : Position) : Position := { p with column := p.column + 1 }

def after (p : Position) (c : Char) : Position :=
  if c = '\n' then ⟨p.line + 1, 0⟩ else p.next

end Position

structure Span where
  start : Position
  stop : Position
deriving DecidableEq, Ord, Inhabited

namespace Span

def none : Span := ⟨.origin, .origin⟩

def collapse (s : Span) : Span := ⟨s.stop, s.stop⟩

def merge (s t : Span) : Span := ⟨min s.start t.start, max s.stop t.stop⟩

def isEmpty (s : Span) : Bool := s.start = s.stop

def lineRange (s : Span) : Nat × Nat := (s.start.line, s.stop.line)

def display (s : Span) : String :=
  s!"{s.start.line}:{s.start.column} to {s.stop.line}:{s.stop.column}"

end Span
end PredictiveParsing
