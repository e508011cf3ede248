import PredictiveParsing.Text.Position

/-!
# The scan cursor

A cursor follows the characters that a scanner reads. It keeps the span of the token under way and
the lengths of the lines crossed since that token began, so that characters read too far can be
given back one by one and the exact column of a line end is found again. `commit` ends the token and
forgets the lines behind it.
-/
namespace PredictiveParsing

inductive CursorError
  /-- A line end was given back, and the length of the line before it is not known. -/
  | historyEmpty
  /-- A character was given back that cannot stand before the end of the span. -/
  | unexpectedRetreat (line : Nat)
deriving DecidableEq

def CursorError.message : CursorError → String
  | historyEmpty => "line history is empty"
  | unexpectedRetreat line => s!"unexpected retreat past column 0 of line {line}"

structure Cursor where
  offset : Nat
  span : Span
  /-- Lengths of the lines left behind, the latest first. -/
  crossed : List Nat
deriving DecidableEq

namespace Cursor

def new : Cursor := ⟨0, .none, []⟩

def advance (c : Cursor) (ch : Char) : Cursor where
  offset := c.offset + 1
  span := { c.span with stop := c.span.stop.after ch }
  crossed := if ch = '\n' then c.span.stop.column :: c.crossed else c.crossed

def backTo (c : Cursor) (stop : Position) (crossed : List Nat) : Cursor where
  offset := c.offset - 1
  span := ⟨if stop < c.span.start then stop else c.span.start, stop⟩
  crossed := crossed

def retreat (c : Cursor) (ch : Char) : Cursor × Option CursorError :=
  let stop := c.span.stop
  if ch = '\n' then
    if stop.column ≠ 0 ∨ stop.line = 0 then (c, some (.unexpectedRetreat stop.line))
    else match c.crossed with
      | [] => (c, some .historyEmpty)
      | column :: crossed => (c.backTo ⟨stop.line - 1, column⟩ crossed, none)
  else if stop.column = 0 then (c, some (.unexpectedRetreat stop.line))
  else (c.backTo ⟨stop.line, stop.column - 1⟩ c.crossed, none)

def commit (c : Cursor) : Cursor := { c with span := c.span.collapse, crossed := [] }

def collapse (c : Cursor) : Cursor := { c with span := c.span.collapse }

def advanceAll (c : Cursor) (s : List Char) : Cursor := s.foldl advance c

/-- Gives back the characters of `s` in the order of the list. What was given back before an error
stays given back. -/
def retreatAll (c : Cursor) : List Char → Cursor × Option CursorError
  | [] => (c, none)
  | ch :: s =>
    match c.retreat ch with
    | (c', none) => c'.retreatAll s
    | (c', some e) => (c', some e)

end Cursor
end PredictiveParsing
