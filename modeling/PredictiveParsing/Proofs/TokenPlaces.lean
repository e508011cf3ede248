import PredictiveParsing.Proofs.Lexemes

/-!
# The places of tokens

A scanner moves a cursor over the text, back over what it has read too far, and builds the image of a
token from its matches while it merges their spans. The image and the span describe the same stretch
of the text at every step, so every token stands where its span says. Main statement: `tokens_stand`.
-/
namespace PredictiveParsing

theorem Cursor.span_advanceAll (c : Cursor) (cs : List Char) :
    (c.advanceAll cs).span = ⟨c.span.start, cs.foldl Position.after c.span.stop⟩ := by
  induction cs generalizing c with
  | nil => rfl
  | cons ch cs ih => exact ih (c.advance ch)

theorem extract_append_take {α : Type} {a m : Nat} (h : a ≤ m) (n : Nat) (cs : List α) :
    cs.extract a m ++ (cs.drop m).take n = cs.extract a (m + n) := by
  obtain ⟨k, rfl⟩ := Nat.exists_eq_add_of_le h
  rw [List.extract_eq_take_drop, List.extract_eq_take_drop, Nat.add_sub_cancel_left, Nat.add_assoc,
    Nat.add_sub_cancel_left, List.take_add, List.drop_drop]

namespace Scanner

variable {input : List Char} {a m n kind : Nat} {s s' : Scanner}

/-- The scanner has come to offset `m` of the text, and keeps what begins at `a` for the next
token. -/
structure StandsAt (input : List Char) (a m : Nat) (s : Scanner) : Prop where
  upcoming : s.upcoming = input.drop m
  kept_le : a ≤ m
  le_length : m ≤ input.length
  image : s.image = String.ofList (input.extract a m)
  imageSpan : s.imageSpan = if a = m then none else some (.ofOffsets input a m)
  span : s.cursor.span = .ofOffsets input m m
  live : s.finished = false

theorem standsAt_new (table : ScanTable) (input : List Char) :
    StandsAt input 0 0 (new table input) :=
  ⟨rfl, Nat.le_refl 0, Nat.zero_le _, by simp [new], rfl, rfl, rfl⟩

theorem StandsAt.ordered (h : StandsAt input a m s) : s.cursor.Ordered := by
  rw [Cursor.Ordered, h.span]
  exact Position.le_refl _

structure Matched (input : List Char) (a m b : Nat) (s : Scanner) : Prop where
  upcoming : s.upcoming = input.drop b
  kept_le : a ≤ m
  lt : m < b
  le_length : b ≤ input.length
  image : s.image ++ String.ofList (input.extract m b) = String.ofList (input.extract a b)
  span : s.cursor.span = .ofOffsets input m b
  imageSpan : s.imageSpanWith s.cursor.span = .ofOffsets input a b
  live : s.finished = false

theorem StandsAt.extract (h : StandsAt input a m s) (n : Nat) :
    s.upcoming.take n = input.extract m (m + n) := by
  rw [h.upcoming, ← extract_append_take (Nat.le_refl m)]
  simp

theorem StandsAt.matched (h : StandsAt input a m s)
    (hlongest : s.table.longest? s.mode s.upcoming = some (kind, n))
    (hmoved : MovedOver s (s.upcoming.take n) s') : Matched input a m (m + n) s' := by
  obtain ⟨hpos, hn⟩ := ScanTable.longest?_bounds hlongest
  have hle : m + n ≤ input.length := by
    have := h.le_length
    rw [h.upcoming, List.length_drop] at hn
    omega
  have hupcoming : s'.upcoming = input.drop (m + n) := by
    have hsplit := hmoved.upcoming
    conv_lhs at hsplit => rw [← List.take_append_drop n s.upcoming]
    rw [← List.append_cancel_left hsplit, h.upcoming, List.drop_drop]
  have himage : s'.image ++ String.ofList (input.extract m (m + n)) =
      String.ofList (input.extract a (m + n)) := by
    rw [hmoved.image, h.image, ← h.extract, h.upcoming, ← String.ofList_append,
      extract_append_take h.kept_le]
  have hspan : s'.cursor.span = .ofOffsets input m (m + n) := by
    rw [hmoved.cursor, Cursor.span_advanceAll, h.span, h.upcoming]
    simp only [Span.ofOffsets, Position.foldl_after_behind, ← List.take_add]
  refine ⟨hupcoming, h.kept_le, by omega, hle, himage, hspan, ?_, hmoved.finished.trans h.live⟩
  rw [imageSpanWith, hmoved.imageSpan, h.imageSpan, hspan]
  by_cases ham : a = m
  · rw [if_pos ham, ham]
  · rw [if_neg ham]
    exact Span.merge_ofOffsets h.kept_le (Nat.le_add_right m n) input

theorem Matched.standsAt_fresh {b : Nat} (h : Matched input a m b s) (mode : Nat) :
    StandsAt input b b
      { s with cursor := s.cursor.commit, mode := mode, image := "", imageSpan := none } := by
  refine ⟨h.upcoming, Nat.le_refl b, h.le_length, by simp, by simp, ?_, h.live⟩
  simp only [Cursor.commit, h.span]
  rfl

theorem Matched.standsAt_kept {b : Nat} (h : Matched input a m b s) (mode : Nat) :
    StandsAt input a b
      { s with
        cursor := s.cursor.commit
        mode := mode
        image := s.image ++ String.ofList (input.extract m b)
        imageSpan := some (s.imageSpanWith s.cursor.span) } := by
  have hlt : a < b := Nat.lt_of_le_of_lt h.kept_le h.lt
  refine ⟨h.upcoming, Nat.le_of_lt hlt, h.le_length, h.image, ?_, ?_, h.live⟩
  · simp only [h.imageSpan, if_neg (Nat.ne_of_lt hlt)]
  · simp only [Cursor.commit, h.span]
    rfl

def LaysOut (s : Scanner) (input : List Char) (a m : Nat)
    (items : List (Except ScanError ScannedToken)) (places : List (Nat × Nat)) : Prop :=
  s.table.Laid input a m (s.table.lexemes s.mode m s.upcoming) items places

/-- What settling a match that ends at `b` does: a token is handed over that ends there, or else the
scanner goes on with what it keeps from `c` on. -/
inductive Settles (input : List Char) (a m b : Nat) (s : Scanner) :
    Scanner × Option ScannedToken → Prop
  | on {s' : Scanner} {c : Nat} (hs : StandsAt input c b s')
      (h : ∀ items places, s'.LaysOut input c b items places → s.LaysOut input a m items places) :
      Settles input a m b s (s', none)
  | token {s' : Scanner} {t : ScannedToken} (hs : StandsAt input b b s')
      (h : ∀ items places, s'.LaysOut input b b items places →
        s.LaysOut input a m (.ok t :: items) ((a, b) :: places)) :
      Settles input a m b s (s', some t)

theorem StandsAt.settles (h : StandsAt input a m s)
    (hlongest : s.table.longest? s.mode s.upcoming = some (kind, n))
    (hmoved : MovedOver s (s.upcoming.take n) s') :
    Settles input a m (m + n) s (s'.settle kind (s.upcoming.take n)) := by
  have hmatched := h.matched hlongest hmoved
  have hlays (items : List (Except ScanError ScannedToken)) (places : List (Nat × Nat)) :
      s.LaysOut input a m items places ↔ s'.table.Laid input a m (⟨kind, m, m + n⟩ ::
        s'.table.lexemes ((s'.table.nextMode? kind).getD s'.mode) (m + n) s'.upcoming)
        items places := by
    rw [LaysOut, ScanTable.lexemes_found hlongest, hmoved.table, hmoved.mode, hmatched.upcoming,
      h.upcoming, List.drop_drop]
  -- a token is handed over with what was kept before it
  have htoken (special : Bool)
      (hd : s'.table.disposition kind = if special then .special else .token)
      (items : List (Except ScanError ScannedToken)) (places : List (Nat × Nat))
      (hrest : s'.table.Laid input (m + n) (m + n)
        (s'.table.lexemes ((s'.table.nextMode? kind).getD s'.mode) (m + n) s'.upcoming)
        items places) :
      s.LaysOut input a m (.ok ⟨kind, s'.image ++ String.ofList (input.extract m (m + n)),
        s'.imageSpanWith s'.cursor.span, special⟩ :: items) ((a, m + n) :: places) := by
    rw [hlays, hmatched.image, hmatched.imageSpan]
    exact .token (l := ⟨kind, m, m + n⟩) special hd hmatched.lt hmatched.le_length hrest
  rw [h.extract]
  cases hd : s'.table.disposition kind with
  | skip =>
    simp only [settle, hd]
    exact .on (hmatched.standsAt_fresh _) fun items places hrest =>
      (hlays items places).2
        (.skip (l := ⟨kind, m, m + n⟩) hd hmatched.lt hmatched.le_length hrest)
  | more =>
    simp only [settle, hd]
    exact .on (hmatched.standsAt_kept _) fun items places hrest =>
      (hlays items places).2
        (.more (l := ⟨kind, m, m + n⟩) hd hmatched.lt hmatched.le_length hrest)
  | token =>
    simp only [settle, hd]
    exact .token (hmatched.standsAt_fresh _) (htoken false hd)
  | special =>
    simp only [settle, hd]
    exact .token (hmatched.standsAt_fresh _) (htoken true hd)

inductive Places (input : List Char) (a m : Nat) (s : Scanner) :
    Scanner × Except ScanError ScannedToken → Prop
  | token {s' : Scanner} {t : ScannedToken} {b : Nat} {p : Nat × Nat} (hs : StandsAt input b b s')
      (hlt : m < b)
      (h : ∀ items places, s'.LaysOut input b b items places →
        s.LaysOut input a m (.ok t :: items) (p :: places)) : Places input a m s (s', .ok t)
  | last {s' : Scanner} {t : ScannedToken} {places : List (Nat × Nat)}
      (hfinished : s'.finished = true) (h : s.LaysOut input a m [.ok t] places) :
      Places input a m s (s', .ok t)
  | failed {s' : Scanner} {e : ScanError} (h : s.LaysOut input a m [.error e] []) :
      Places input a m s (s', .error e)

theorem Places.of_settled {b c : Nat} (hlt : m < b)
    (h : ∀ items places, s'.LaysOut input c b items places → s.LaysOut input a m items places)
    {r : Scanner × Except ScanError ScannedToken} (hr : Places input c b s' r) :
    Places input a m s r := by
  cases hr with
  | token hs hlt' h' =>
    exact .token hs (Nat.lt_trans hlt hlt') fun items places hrest => h _ _ (h' items places hrest)
  | last hfinished h' => exact .last hfinished (h _ _ h')
  | failed h' => exact .failed (h _ _ h')

theorem StandsAt.finish (h : StandsAt input a m s)
    (hlongest : s.table.longest? s.mode s.upcoming = none) (hnil : s.upcoming = [])
    (hmoved : MovedOver s [] s') : Places input a m s s'.finish := by
  have hend : m = input.length := by
    have hle := List.drop_eq_nil_iff.1 (h.upcoming.symm.trans hnil)
    exact Nat.le_antisymm h.le_length hle
  have hlexemes := ScanTable.lexemes_none hlongest m
  unfold Scanner.finish
  simp only [hmoved.image, hmoved.cursor]
  by_cases hempty : s.image.isEmpty = true
  · -- nothing is kept, so what is kept begins at the end
    have ham : a = m := by
      have hnone : m - a = 0 ∨ input.length ≤ a := by simpa [h.image] using hempty
      have := h.kept_le
      omega
    subst ham hend
    have hlays : s.LaysOut input input.length input.length
        [.ok ⟨eofKind, "", s.cursor.span, false⟩] [(input.length, input.length)] := by
      rw [LaysOut, hlexemes, h.span]
      exact .eof
    rw [if_pos hempty]
    exact .last rfl hlays
  · rw [if_neg hempty]
    refine .failed ?_
    rw [LaysOut, hlexemes]
    exact .failed _

theorem scanToken_places (fuel : Nat) (h : StandsAt input a m s)
    (hfuel : s.upcoming.length < fuel) : Places input a m s (scanToken fuel s) := by
  induction fuel generalizing s a m with
  | zero => exact absurd hfuel (Nat.not_lt_zero _)
  | succ fuel ih =>
    have hattempt := tryMatch_attempted h.ordered
    rw [scanToken]
    generalize s.tryMatch = r at hattempt
    cases hattempt with
    | @found s' kind n hlongest hmoved =>
      have hpos := (ScanTable.longest?_bounds hlongest).1
      have hlt : m < m + n := by omega
      have hsettles := h.settles hlongest hmoved
      simp only
      generalize s'.settle kind (s.upcoming.take n) = settled at hsettles ⊢
      cases hsettles with
      | token hs hrest => exact .token hs hlt hrest
      | @on s'' c hs hrest =>
        refine .of_settled hlt hrest (ih hs ?_)
        rw [h.upcoming, List.length_drop] at hfuel
        rw [hs.upcoming, List.length_drop]
        have := hs.le_length
        omega
    | noMatch hlongest hc hmoved =>
      refine .failed ?_
      rw [LaysOut, ScanTable.lexemes_none hlongest]
      exact .failed _
    | atEnd hlongest hc hmoved => exact h.finish hlongest hc hmoved

theorem itemsWithin_laysOut (fuel : Nat) (h : StandsAt input a m s)
    (hfuel : s.upcoming.length + 1 < fuel) :
    ∃ places, s.LaysOut input a m (itemsWithin fuel s).2 places := by
  induction fuel generalizing s a m with
  | zero => exact absurd hfuel (Nat.not_lt_zero _)
  | succ fuel ih =>
    have hplaces := scanToken_places (s.upcoming.length + 1) h (Nat.lt_succ_self _)
    have hlive : ¬ s.finished = true := by rw [h.live]; exact Bool.false_ne_true
    rw [itemsWithin, next, tryNext, if_neg hlive]
    generalize scanToken (s.upcoming.length + 1) s = r at hplaces
    cases hplaces with
    | @token s' t b p hs hlt hrest =>
      have hle := hs.le_length
      obtain ⟨places, hitems⟩ := ih hs (by
        rw [h.upcoming, List.length_drop] at hfuel
        rw [hs.upcoming, List.length_drop]
        omega)
      exact ⟨_, hrest _ _ hitems⟩
    | last hfinished hlays =>
      simp only [itemsWithin_of_finished hfinished]
      exact ⟨_, hlays⟩
    | @failed s' e hlays =>
      have hfinished : ({ s' with finished := true } : Scanner).finished = true := rfl
      simp only [itemsWithin_of_finished hfinished]
      exact ⟨_, hlays⟩

/-- Every token that a scanner hands over is a stretch of the text, its image and its span are those
of the stretch, and each begins where the one before it ends or later. The last one, unless the scan
fails, is the empty stretch at the end. Every character is accounted for. -/
theorem tokens_stand (table : ScanTable) (input : List Char) :
    ∃ places : List (Nat × Nat),
      List.Forall₂ (ScannedToken.StandsIn input)
        ((new table input).items.2.filterMap Except.toOption) places ∧
      places.Pairwise (fun p q => p.1 < p.2 ∧ p.2 ≤ q.1) ∧
      ((∃ e, (new table input).items.2.getLast? = some (.error e)) ∨
        ∃ token, (new table input).items.2.getLast? = some (.ok token) ∧ token.kind = eofKind ∧
          places.getLast? = some (input.length, input.length)) ∧
      ∀ j < input.length, table.Accounted (table.lexemes table.initialMode 0 input)
        (new table input).items.2 places j := by
  obtain ⟨places, h⟩ := itemsWithin_laysOut _ (standsAt_new table input) (Nat.lt_succ_self _)
  have hlaid : table.Laid input 0 0 (table.lexemes table.initialMode 0 input)
      (new table input).items.2 places := h
  exact ⟨places, hlaid.stands (Nat.le_refl 0), hlaid.pairwise_places (Nat.le_refl 0), hlaid.last,
    fun j hj => hlaid.accounted (.nil table 0) (Nat.zero_le j) hj⟩

end Scanner
end PredictiveParsing
