import PredictiveParsing.Proofs.CursorUndo

/-!
# Cursors after any history

A new cursor is asked to advance, to retreat, to commit and to collapse its span, in any order and
with any characters, those included that it has never read. Whatever it is asked, the characters of
the current line and of the lines it remembers, line ends included, are no more than those it has
read. So a character that is given back was read, and the offset does not go below zero. Main
statement: `undo_after_history`.
-/
namespace PredictiveParsing.Cursor

inductive Request
  | advance (ch : Char)
  | retreat (ch : Char)
  | commit
  | collapse

def answer (c : Cursor) : Request → Cursor × Option CursorError
  | .advance ch => (c.advance ch, none)
  | .retreat ch => c.retreat ch
  | .commit => (c.commit, none)
  | .collapse => (c.collapse, none)

def after (history : List Request) : Cursor :=
  history.foldl (fun c request => (c.answer request).1) new

/-- The characters from the beginning of the first line remembered to the end of the span. -/
def remembered (c : Cursor) : Nat :=
  c.span.stop.column + c.crossed.foldr (fun column total => column + 1 + total) 0

theorem remembered_advance (c : Cursor) (ch : Char) :
    (c.advance ch).remembered = c.remembered + 1 := by
  by_cases hc : ch = '\n'
  · simp only [remembered, advance, Position.after, if_pos hc, List.foldr_cons]
    omega
  · simp only [remembered, advance, Position.after, if_neg hc, Position.next]
    omega

theorem retreat_cases (c : Cursor) (ch : Char) :
    (∃ e, c.retreat ch = (c, some e)) ∨
      ∃ stop crossed, c.retreat ch = (c.backTo stop crossed, none) ∧
        (c.backTo stop crossed).remembered + 1 = c.remembered := by
  by_cases hc : ch = '\n'
  · simp only [retreat, if_pos hc]
    split
    · exact .inl ⟨_, rfl⟩
    · next hstop =>
      cases hcrossed : c.crossed with
      | nil => exact .inl ⟨_, rfl⟩
      | cons column crossed =>
        refine .inr ⟨_, _, rfl, ?_⟩
        simp only [remembered, backTo, hcrossed, List.foldr_cons]
        omega
  · simp only [retreat, if_neg hc]
    split
    · exact .inl ⟨_, rfl⟩
    · next hstop =>
      refine .inr ⟨_, _, rfl, ?_⟩
      simp only [remembered, backTo]
      omega

theorem retreat_eq_some {c c' : Cursor} {ch : Char} {e : CursorError}
    (h : c.retreat ch = (c', some e)) : c' = c := by
  obtain ⟨e', heq⟩ | ⟨stop, crossed, heq, -⟩ := retreat_cases c ch
  · exact (Prod.mk.inj (h.symm.trans heq)).1
  · cases (Prod.mk.inj (h.symm.trans heq)).2

theorem retreat_eq_none {c c' : Cursor} {ch : Char} (h : c.retreat ch = (c', none)) :
    ∃ stop crossed, c' = c.backTo stop crossed ∧ c'.remembered + 1 = c.remembered := by
  obtain ⟨e, heq⟩ | ⟨stop, crossed, heq, hremembered⟩ := retreat_cases c ch
  · cases (Prod.mk.inj (h.symm.trans heq)).2
  · obtain rfl := (Prod.mk.inj (h.symm.trans heq)).1
    exact ⟨stop, crossed, rfl, hremembered⟩

theorem Ordered.backTo (c : Cursor) (stop : Position) (crossed : List Nat) :
    (c.backTo stop crossed).Ordered := by
  simp only [Ordered, Cursor.backTo]
  split
  · exact Position.le_refl stop
  · next hle =>
    rw [Position.lt_def] at hle
    rw [Position.le_def]
    omega

structure Sound (c : Cursor) : Prop where
  ordered : c.Ordered
  remembered_le : c.remembered ≤ c.offset

theorem Sound.new : Cursor.new.Sound := ⟨.new, Nat.le_refl 0⟩

theorem Sound.advance {c : Cursor} (h : c.Sound) (ch : Char) : (c.advance ch).Sound := by
  refine ⟨h.ordered.advance ch, ?_⟩
  rw [remembered_advance]
  exact Nat.succ_le_succ h.remembered_le

theorem Sound.offset_retreat {c c' : Cursor} (h : c.Sound) {ch : Char}
    (hretreat : c.retreat ch = (c', none)) : c'.offset + 1 = c.offset := by
  obtain ⟨stop, crossed, rfl, hremembered⟩ := retreat_eq_none hretreat
  have hread := h.remembered_le
  simp only [backTo]
  omega

theorem Sound.retreat {c : Cursor} (h : c.Sound) (ch : Char) : (c.retreat ch).1.Sound := by
  obtain ⟨e, heq⟩ | ⟨stop, crossed, heq, hremembered⟩ := retreat_cases c ch
  · rwa [heq]
  · have hoffset := h.offset_retreat heq
    have hread := h.remembered_le
    rw [heq]
    refine ⟨.backTo c stop crossed, ?_⟩
    show (c.backTo stop crossed).remembered ≤ (c.backTo stop crossed).offset
    omega

theorem Sound.collapse {c : Cursor} (h : c.Sound) : c.collapse.Sound :=
  ⟨Position.le_refl _, h.remembered_le⟩

theorem Sound.commit {c : Cursor} (h : c.Sound) : c.commit.Sound := by
  refine ⟨.commit c, ?_⟩
  have hread := h.remembered_le
  simp only [remembered] at hread
  simp only [remembered, Cursor.commit, Span.collapse, List.foldr_nil]
  omega

theorem Sound.answer {c : Cursor} (h : c.Sound) (request : Request) :
    (c.answer request).1.Sound := by
  cases request with
  | advance ch => exact h.advance ch
  | retreat ch => exact h.retreat ch
  | commit => exact h.commit
  | collapse => exact h.collapse

theorem sound_after (history : List Request) : (after history).Sound := by
  have hrun (c : Cursor) (h : c.Sound) :
      (history.foldl (fun c request => (c.answer request).1) c).Sound := by
    induction history generalizing c with
    | nil => exact h
    | cons request history ih => exact ih _ (h.answer request)
  exact hrun new .new

theorem retreatAll_append {c c' : Cursor} {s : List Char} (h : c.retreatAll s = (c', none))
    (t : List Char) : c.retreatAll (s ++ t) = c'.retreatAll t := by
  induction s generalizing c with
  | nil =>
    obtain rfl := (Prod.mk.inj h).1
    rfl
  | cons ch s ih =>
    rw [retreatAll] at h
    rw [List.cons_append, retreatAll]
    obtain ⟨e, heq⟩ | ⟨stop, crossed, heq, -⟩ := retreat_cases c ch
    · rw [heq] at h
      cases (Prod.mk.inj h).2
    · rw [heq] at h ⊢
      exact ih h

theorem retreatAll_eq_some {c c' : Cursor} {s : List Char} {e : CursorError}
    (h : c.retreatAll s = (c', some e)) :
    ∃ given ch rest, s = given ++ ch :: rest ∧ c.retreatAll given = (c', none) ∧
      c'.retreat ch = (c', some e) := by
  induction s generalizing c with
  | nil => cases (Prod.mk.inj h).2
  | cons ch s ih =>
    rw [retreatAll] at h
    obtain ⟨e', heq⟩ | ⟨stop, crossed, heq, -⟩ := retreat_cases c ch
    · rw [heq] at h
      obtain ⟨rfl, he⟩ := Prod.mk.inj h
      obtain rfl := Option.some.inj he
      exact ⟨[], ch, s, rfl, rfl, heq⟩
    · rw [heq] at h
      obtain ⟨given, ch', rest, rfl, hgiven, herror⟩ := ih h
      refine ⟨ch :: given, ch', rest, rfl, ?_, herror⟩
      rw [retreatAll, heq]
      exact hgiven

theorem retreatAll_advanceAll {c : Cursor} (h : c.Ordered) (s : List Char) :
    (c.advanceAll s).retreatAll s.reverse = (c, none) := by
  induction s generalizing c with
  | nil => rfl
  | cons ch s ih =>
    have hrest : (c.advanceAll (ch :: s)).retreatAll s.reverse = (c.advance ch, none) :=
      ih (h.advance ch)
    rw [List.reverse_cons, retreatAll_append hrest, retreatAll, retreat_advance h]
    rfl

/-- After any history the span begins no later than it ends; a character given back takes one from
the offset, which is not zero then; a request that is refused, also in the middle of a text, leaves
the cursor as it was; and a text that is read and given back from its last character to its first
leaves the cursor that there was before. -/
theorem undo_after_history (history : List Request) :
    (after history).span.start ≤ (after history).span.stop ∧
    (∀ ch c', (after history).retreat ch = (c', none) → c'.offset + 1 = (after history).offset) ∧
    (∀ request e, ((after history).answer request).2 = some e →
      ((after history).answer request).1 = after history) ∧
    (∀ s c' e, (after history).retreatAll s = (c', some e) →
      ∃ given ch rest, s = given ++ ch :: rest ∧ (after history).retreatAll given = (c', none) ∧
        c'.retreat ch = (c', some e)) ∧
    ∀ s : List Char,
      ((after history).advanceAll s).retreatAll s.reverse = (after history, none) := by
  have hsound := sound_after history
  refine ⟨hsound.ordered, fun ch c' h => hsound.offset_retreat h, ?_,
    fun s c' e h => retreatAll_eq_some h, retreatAll_advanceAll hsound.ordered⟩
  intro request e h
  cases request with
  | advance ch | commit | collapse => cases h
  | retreat ch => exact retreat_eq_some (Prod.ext rfl h)

end PredictiveParsing.Cursor
