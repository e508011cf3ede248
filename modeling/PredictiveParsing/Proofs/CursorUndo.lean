import PredictiveParsing.Text.Cursor

/-!
# Giving characters back

A cursor that has advanced over a text and gets its characters back from the last to the first is
the cursor that it was, with position, span and lines crossed. This holds of every cursor whose span
begins no later than it ends, and reading keeps spans so.
-/
namespace PredictiveParsing

namespace Position

theorem le_refl (p : Position) : p ≤ p := Or.inr ⟨rfl, Nat.le_refl _⟩

theorem le_after {p q : Position} (h : p ≤ q) (c : Char) : p ≤ q.after c := by
  rw [le_def] at h ⊢
  by_cases hc : c = '\n'
  · simp only [after, if_pos hc]
    omega
  · simp only [after, if_neg hc, next]
    omega

theorem not_lt_of_le {p q : Position} (h : p ≤ q) : ¬ q < p := by
  rw [le_def] at h
  rw [lt_def]
  omega

end Position

namespace Cursor

def Ordered (c : Cursor) : Prop := c.span.start ≤ c.span.stop

theorem Ordered.new : Cursor.new.Ordered := Position.le_refl _

theorem Ordered.commit (c : Cursor) : c.commit.Ordered := Position.le_refl _

theorem Ordered.advance {c : Cursor} (h : c.Ordered) (ch : Char) : (c.advance ch).Ordered :=
  Position.le_after h ch

theorem Ordered.advanceAll {c : Cursor} (h : c.Ordered) (s : List Char) :
    (c.advanceAll s).Ordered := by
  induction s generalizing c with
  | nil => exact h
  | cons ch s ih => exact ih (h.advance ch)

theorem advanceAll_append (c : Cursor) (s t : List Char) :
    c.advanceAll (s ++ t) = (c.advanceAll s).advanceAll t :=
  List.foldl_append

theorem advanceAll_concat (c : Cursor) (s : List Char) (ch : Char) :
    c.advanceAll (s ++ [ch]) = (c.advanceAll s).advance ch :=
  advanceAll_append c s [ch]

theorem backTo_advance {c : Cursor} (h : c.Ordered) (ch : Char) :
    (c.advance ch).backTo c.span.stop c.crossed = c := by
  have hstart : ¬ c.span.stop < (c.advance ch).span.start := Position.not_lt_of_le h
  rw [backTo, if_neg hstart]
  rfl

theorem retreat_advance {c : Cursor} (h : c.Ordered) (ch : Char) :
    (c.advance ch).retreat ch = (c, none) := by
  have hback := backTo_advance h ch
  by_cases hc : ch = '\n'
  · have hstop : (c.advance ch).span.stop = ⟨c.span.stop.line + 1, 0⟩ := by
      simp only [advance, Position.after, if_pos hc]
    have hcrossed : (c.advance ch).crossed = c.span.stop.column :: c.crossed := by
      simp only [advance, if_pos hc]
    rw [retreat, if_pos hc, hcrossed, hstop, if_neg (by simp)]
    exact congrArg (·, none) hback
  · have hstop : (c.advance ch).span.stop = ⟨c.span.stop.line, c.span.stop.column + 1⟩ := by
      simp only [advance, Position.after, if_neg hc, Position.next]
    have hcrossed : (c.advance ch).crossed = c.crossed := by
      simp only [advance, if_neg hc]
    rw [retreat, if_neg hc, hcrossed, hstop, if_neg (by simp)]
    exact congrArg (·, none) hback

end Cursor
end PredictiveParsing
