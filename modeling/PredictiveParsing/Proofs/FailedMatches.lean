import PredictiveParsing.Proofs.Relocation

/-!
# Failed matches

An attempt that matches nothing may have read far, over line ends and over characters that were
given back before. All of it is undone, so whoever is told that nothing matches may ask again, or
change the mode and go on from the same character. What was kept for the next token is still kept
then. Main statement: `resumes_after_noMatch`.
-/
namespace PredictiveParsing

namespace Scanner

variable {table : ScanTable} {input lexeme : List Char} {s s' : Scanner} {kind : Nat}
  {outcome : Match} {c : Char} {name : String} {span : Span}

/-- What a scanner of `input` comes to between two attempts to match. -/
inductive Reached (table : ScanTable) (input : List Char) : Scanner → Prop
  | new : Reached table input (new table input)
  | call {s : Scanner} (h : Reached table input s) (call : Call) : Reached table input (call.run s).1
  /-- Within a call that goes on after a match. -/
  | settled {s s' : Scanner} {kind : Nat} {lexeme : List Char} (h : Reached table input s)
      (hmatch : s.tryMatch = (s', .found kind lexeme)) :
      Reached table input (s'.settle kind lexeme).1

structure AtRest (table : ScanTable) (s : Scanner) : Prop where
  table : s.table = table
  cursor : s.cursor.commit = s.cursor
  kept : s.imageSpan = none ↔ s.image = ""

def leftover (s : Scanner) : Except CursorError (Scanner × List Char) :=
  let r := s.counted.attempt
  r.scanner.giveBack (r.lexeme.length - r.kept) r.lexeme

theorem fst_tryMatch_of_leftover (h : s.leftover = .ok (s', lexeme)) : s.tryMatch.1 = s' := by
  rw [leftover] at h
  rw [tryMatch]
  simp only [h]

theorem leftover_of_none (hs : s.cursor.Ordered)
    (h : s.table.longest? s.mode s.upcoming = none) : s.leftover = .ok (s.tryMatch.1, []) := by
  have hbest : s.counted.attempt.best = none := (attempt_best s.counted).trans h
  have hkept : s.counted.attempt.kept = 0 := by rw [Run.kept, hbest]; rfl
  obtain ⟨s', hback, -, -⟩ := attempt_giveBack (s := s.counted) hs
  have hleft : s.leftover = .ok (s', []) := by
    refine hback.trans ?_
    rw [hkept, List.take_zero, List.reverse_nil]
  rw [fst_tryMatch_of_leftover hleft, hleft]

namespace AtRest

theorem ordered (h : AtRest table s) : s.cursor.Ordered := by
  rw [← h.cursor]
  exact .commit _

theorem span_eq (h : AtRest table s) : s.cursor.span = ⟨s.cursor.span.stop, s.cursor.span.stop⟩ :=
  (congrArg Cursor.span h.cursor).symm

theorem new (table : ScanTable) (input : List Char) : AtRest table (new table input) :=
  ⟨rfl, rfl, ⟨fun _ => rfl, fun _ => rfl⟩⟩

theorem ended (h : AtRest table s) : AtRest table { s with finished := true } :=
  ⟨h.table, h.cursor, h.kept⟩

theorem begin (h : AtRest table s) (mode : Nat) : AtRest table (s.begin mode) :=
  ⟨h.table, h.cursor, h.kept⟩

theorem unmoved (h : AtRest table s) (hs : MovedOver s [] s') : AtRest table s' where
  table := hs.table.trans h.table
  cursor := by
    have hcursor : s'.cursor = s.cursor := hs.cursor
    rw [hcursor, h.cursor]
  kept := by rw [hs.imageSpan, hs.image, h.kept]

theorem finish (h : AtRest table s) : AtRest table s.finish.1 := by
  rw [Scanner.finish]
  dsimp only
  split
  · exact h.ended
  · exact h.ended

theorem of_not_found (h : AtRest table s) (hmatch : s.tryMatch = (s', outcome))
    (hnone : ∀ kind lexeme, outcome ≠ .found kind lexeme) :
    s.table.longest? s.mode s.upcoming = none ∧ outcome = s.missed ∧ MovedOver s [] s' := by
  cases hlongest : s.table.longest? s.mode s.upcoming with
  | some best =>
    obtain ⟨kind, n⟩ := best
    obtain ⟨s₁, hfound, -⟩ := tryMatch_of_found h.ordered hlongest
    rw [hmatch] at hfound
    cases hfound
    exact absurd rfl (hnone _ _)
  | none =>
    obtain ⟨s₁, hmissed, hmoved⟩ := tryMatch_of_none h.ordered hlongest
    rw [hmatch] at hmissed
    cases hmissed
    exact ⟨rfl, rfl, hmoved⟩

theorem settled (h : AtRest table s) (hmatch : s.tryMatch = (s', .found kind lexeme)) :
    AtRest table (s'.settle kind lexeme).1 ∧ (s'.settle kind lexeme).1.finished = s.finished ∧
      (s'.settle kind lexeme).1.upcoming.length < s.upcoming.length := by
  have hattempt := tryMatch_attempted h.ordered
  rw [hmatch] at hattempt
  cases hattempt with
  | @found _ _ n hlongest hmoved =>
    have hbounds := ScanTable.longest?_bounds hlongest
    obtain ⟨hcursor, hupcoming, hfinished⟩ := settle_place s' kind (s.upcoming.take n)
    have htable : s'.table = table := hmoved.table.trans h.table
    refine ⟨⟨?_, ?_, ?_⟩, hfinished.trans hmoved.finished, ?_⟩
    · cases hd : s'.table.disposition kind <;> (simp only [settle, hd]; exact htable)
    · rw [hcursor]
      rfl
    · -- a match is never empty, so what is kept of it is not
      have hfilled : s.upcoming.take n ≠ [] := by
        rw [ne_eq, List.take_eq_nil_iff, ← List.length_eq_zero_iff]
        omega
      cases hd : s'.table.disposition kind <;> simp [settle, hd, hfilled]
    · have hlength := congrArg List.length hmoved.upcoming
      rw [List.length_append, List.length_take] at hlength
      rw [hupcoming]
      omega

end AtRest

inductive EndsAt (s : Scanner) : Scanner × Except ScanError ScannedToken → Prop
  | token {s' s'' : Scanner} {kind : Nat} {lexeme : List Char} {t : ScannedToken}
      (hmatch : s.tryMatch = (s', .found kind lexeme))
      (hsettle : s'.settle kind lexeme = (s'', some t)) : EndsAt s (s'', .ok t)
  | failed {s' : Scanner} {e : ScanError} (hmatch : s.tryMatch = (s', .failed e)) :
      EndsAt s (s', .error e)
  | atEnd {s' : Scanner} (hmatch : s.tryMatch = (s', .atEnd)) : EndsAt s s'.finish

/-- A call goes from one scanner at rest to the next until it ends. -/
theorem scanToken_endsAt (fuel : Nat) (h : AtRest table s) (hfuel : s.upcoming.length < fuel) :
    ∃ last, AtRest table last ∧ last.finished = s.finished ∧ EndsAt last (scanToken fuel s) := by
  induction fuel generalizing s with
  | zero => exact absurd hfuel (Nat.not_lt_zero _)
  | succ fuel ih =>
    rw [scanToken]
    split
    · next hmatch => exact ⟨s, h, rfl, .failed hmatch⟩
    · next hmatch => exact ⟨s, h, rfl, .atEnd hmatch⟩
    · next s' kind lexeme hmatch =>
      obtain ⟨hrest, hfinished, hlt⟩ := h.settled hmatch
      split
      · next hsettle => exact ⟨s, h, rfl, .token hmatch hsettle⟩
      · next hsettle =>
        rw [hsettle] at hrest hfinished hlt
        obtain ⟨last, hlast, hsame, hends⟩ := ih hrest (by omega)
        exact ⟨last, hlast, hsame.trans hfinished, hends⟩

theorem AtRest.of_endsAt (h : AtRest table s) {r : Scanner × Except ScanError ScannedToken}
    (hr : EndsAt s r) : AtRest table r.1 := by
  cases hr with
  | token hmatch hsettle =>
    have hrest := (h.settled hmatch).1
    rw [hsettle] at hrest
    exact hrest
  | failed hmatch => exact h.unmoved (h.of_not_found hmatch (by simp)).2.2
  | atEnd hmatch => exact (h.unmoved (h.of_not_found hmatch (by simp)).2.2).finish

theorem AtRest.tryNext (h : AtRest table s) : AtRest table s.tryNext.1 := by
  obtain ⟨last, hlast, -, hends⟩ :=
    scanToken_endsAt (s.upcoming.length + 1) h (Nat.lt_succ_self _)
  have hrest := hlast.of_endsAt hends
  rw [Scanner.tryNext]
  split
  · exact h
  · split
    · next heq =>
      rw [heq] at hrest
      exact hrest
    · next heq =>
      rw [heq] at hrest
      exact hrest

theorem AtRest.next (h : AtRest table s) : AtRest table s.next.1 := by
  have hrest := h.tryNext
  rw [Scanner.next]
  split
  · next heq =>
    rw [heq] at hrest
    exact hrest
  · next heq =>
    rw [heq] at hrest
    exact hrest
  · next heq =>
    rw [heq] at hrest
    exact hrest.ended

theorem AtRest.run (h : AtRest table s) (call : Call) : AtRest table (call.run s).1 := by
  cases call with
  | begin mode => exact h.begin mode
  | tryNext => exact h.tryNext
  | next =>
    have hstate : (Call.next.run s).1 = s.next.1 := by
      rw [Call.run]
      split <;> next heq => rw [heq]
    rw [hstate]
    exact h.next

theorem Reached.atRest (h : Reached table input s) : AtRest table s := by
  induction h with
  | new => exact .new table input
  | call _ call ih => exact ih.run call
  | settled _ hmatch ih => exact (ih.settled hmatch).1

theorem EndsAt.tryMatch_eq {r : Scanner × Except ScanError ScannedToken} (h : EndsAt s r)
    (hr : r.2 = .error (.noMatch c name span)) :
    s.tryMatch = (r.1, .failed (.noMatch c name span)) := by
  cases h with
  | token => cases hr
  | failed hmatch =>
    cases hr
    exact hmatch
  | atEnd hmatch =>
    rw [finish] at hr
    dsimp only at hr
    split at hr
    · cases hr
    · cases hr

theorem MovedOver.missed_eq (h : MovedOver s [] s') : s'.missed = s.missed := by
  have hupcoming : s.upcoming = s'.upcoming := h.upcoming
  have hcursor : s'.cursor = s.cursor := h.cursor
  rw [missed, missed, hupcoming, h.table, h.mode, hcursor]

theorem AtRest.of_noMatch (h : AtRest table s)
    (hnext : s.tryNext = (s', .error (.noMatch c name span))) :
    AtRest table s' ∧ s'.finished = false ∧ s'.table.longest? s'.mode s'.upcoming = none ∧
      s'.missed = .failed (.noMatch c name span) := by
  obtain ⟨last, hlast, hsame, hends⟩ :=
    scanToken_endsAt (s.upcoming.length + 1) h (Nat.lt_succ_self _)
  rw [Scanner.tryNext] at hnext
  split at hnext
  · cases hnext
  · next hlive =>
    split at hnext
    · cases hnext
    · next heq =>
      cases hnext
      rw [heq] at hends
      obtain ⟨hnone, hmissed, hmoved⟩ := hlast.of_not_found (hends.tryMatch_eq rfl) (by simp)
      have hupcoming : last.upcoming = s'.upcoming := hmoved.upcoming
      refine ⟨hlast.unmoved hmoved, ?_, ?_, hmoved.missed_eq.trans hmissed.symm⟩
      · rw [hmoved.finished, hsame]
        exact Bool.eq_false_iff.2 hlive
      · rw [hmoved.table, hmoved.mode, ← hupcoming]
        exact hnone

theorem tryNext_of_missed (hs : s.cursor.Ordered) (hlive : s.finished = false)
    (hnone : s.table.longest? s.mode s.upcoming = none) {e : ScanError}
    (hmissed : s.missed = .failed e) : s.tryNext.2 = .error e := by
  have hopen : ¬ s.finished = true := by rw [hlive]; exact Bool.false_ne_true
  obtain ⟨s', hmatch, -⟩ := tryMatch_of_none hs hnone
  rw [tryNext, if_neg hopen, scanToken, hmatch, hmissed]

/-- A new scanner of the text that is left, at the same place and with the same text kept for the
next token. -/
def restarted (s : Scanner) (mode : Nat) : Scanner :=
  { new s.table s.upcoming with
    mode := mode
    image := s.image
    imageSpan := s.imageSpan
    cursor := { Cursor.new with span := s.cursor.span } }

theorem relocated_restarted (hs : s.cursor.Ordered) (hlive : s.finished = false) (mode : Nat) :
    Relocated .origin (s.restarted mode) (s.begin mode) where
  table := rfl
  mode := rfl
  image := rfl
  imageSpan := by
    have hid : Span.shift .origin = id := funext Span.origin_shift
    rw [hid, Option.map_id]
    rfl
  finished := hlive
  upcoming := rfl
  span := (Span.origin_shift _).symm
  ordered := hs

/-- With nothing kept, a scanner at rest is a new one that stands elsewhere. -/
theorem AtRest.relocated_new (h : AtRest table s) (hlive : s.finished = false)
    (himage : s.image = "") (mode : Nat) :
    Relocated s.cursor.span.stop { Scanner.new table s.upcoming with mode := mode }
      (s.begin mode) where
  table := h.table
  mode := rfl
  image := himage
  imageSpan := h.kept.2 himage
  finished := hlive
  upcoming := rfl
  span := h.span_eq
  ordered := Position.le_refl _

theorem shiftAnswer_origin (r : Except ScanError (Option ScannedToken)) :
    shiftAnswer .origin r = r := by
  cases r with
  | ok token? => cases token? <;> simp [shiftAnswer, shiftResult, ScannedToken.shift]
  | error e => cases e <;> simp [shiftAnswer, shiftResult, ScanError.shift]

theorem place_of_missed (h : s.missed = .failed (.noMatch c name span)) :
    s.upcoming.head? = some c ∧ span.start = s.cursor.span.start := by
  rw [missed] at h
  split at h
  · next hcs =>
    cases h
    rw [hcs]
    exact ⟨rfl, rfl⟩
  · cases h

/-- An attempt that finds nothing changes nothing: mode, cursor, the text kept for the next token
and the text to come are as they were, and no character of the lexeme is left. So a scanner that has
told that nothing matches tells the same again; and when its mode is changed it goes on at the
unmatched character, as a new scanner of the text to come does that keeps the same text and stands
at the same place. With nothing kept, this is a new scanner whose places begin at that character. -/
theorem resumes_after_noMatch {table : ScanTable} {input : List Char} {s : Scanner}
    (h : Reached table input s) :
    (∀ s' outcome, s.tryMatch = (s', outcome) → (∀ kind lexeme, outcome ≠ .found kind lexeme) →
      outcome = s.missed ∧ s.leftover = .ok (s', []) ∧ s'.mode = s.mode ∧ s'.cursor = s.cursor ∧
        s'.image = s.image ∧ s'.imageSpan = s.imageSpan ∧ s'.upcoming = s.upcoming) ∧
    ∀ s' c name span, s.tryNext = (s', .error (.noMatch c name span)) →
      s'.tryNext.2 = .error (.noMatch c name span) ∧
      s'.upcoming.head? = some c ∧ s'.cursor.span = ⟨span.start, span.start⟩ ∧
      ∀ mode calls,
        (s'.begin mode).answers calls = (s'.restarted mode).answers calls ∧
        (s'.image = "" → (s'.begin mode).answers calls =
          ({ new table s'.upcoming with mode := mode }.answers calls).map
            (shiftAnswer span.start)) := by
  have hrest := h.atRest
  refine ⟨fun s' outcome hmatch hnot => ?_, fun s' c name span hnext => ?_⟩
  · obtain ⟨hnone, houtcome, hmoved⟩ := hrest.of_not_found hmatch hnot
    have hleft := leftover_of_none hrest.ordered hnone
    rw [hmatch] at hleft
    exact ⟨houtcome, hleft, hmoved.mode, hmoved.cursor, hmoved.image, hmoved.imageSpan,
      hmoved.upcoming.symm⟩
  · obtain ⟨hrest', hlive, hnone, hmissed⟩ := hrest.of_noMatch hnext
    obtain ⟨hhead, hstart⟩ := place_of_missed hmissed
    have hspan := hrest'.span_eq
    have hplace : s'.cursor.span.stop = span.start := by rw [hstart, hspan]
    rw [hplace] at hspan
    refine ⟨tryNext_of_missed hrest'.ordered hlive hnone hmissed, hhead, hspan,
      fun mode calls => ⟨?_, fun himage => ?_⟩⟩
    · have hanswers := (relocated_restarted hrest'.ordered hlive mode).answers_eq calls
      rw [List.map_congr_left (fun r _ => shiftAnswer_origin r), List.map_id'] at hanswers
      exact hanswers
    · have hanswers := (hrest'.relocated_new hlive himage mode).answers_eq calls
      rw [hplace] at hanswers
      exact hanswers

/-- Outside, a `k` is kept for the next token, and `l` is a token with the `l` that begins the next
line; inside, every character of a line is a token. -/
def twoModes : ScanTable where
  initialMode := 0
  modeName mode := if mode = 0 then "OUTSIDE" else "INSIDE"
  start _ := 0
  next? mode state c :=
    match mode, state, c with
    | 0, 0, 'k' => some 1
    | 0, 0, 'l' => some 2
    | 0, 2, '\n' => some 3
    | 0, 3, 'l' => some 4
    | 1, 0, '\n' => none
    | 1, 0, _ => some 1
    | _, _, _ => none
  accept? mode state :=
    match mode, state with
    | 0, 1 => some 1
    | 0, 4 => some 2
    | 1, 1 => some 3
    | _, _ => none
  disposition kind := if kind = 1 then .more else .token
  nextMode? _ := none

/-- The second attempt reads over a line end before it fails. -/
theorem resumes_after_noMatch_twoModes :
    ∃ s s', Reached twoModes "l\nll\nx".toList s ∧
      s.tryNext = (s', .error (.noMatch 'l' "OUTSIDE" ⟨⟨1, 1⟩, ⟨1, 2⟩⟩)) ∧
      s'.tryNext.2 = .error (.noMatch 'l' "OUTSIDE" ⟨⟨1, 1⟩, ⟨1, 2⟩⟩) ∧ s'.image = "" ∧
      (s'.begin 1).answers [.tryNext, .tryNext] =
        ({ new twoModes s'.upcoming with mode := 1 }.answers [.tryNext, .tryNext]).map
          (shiftAnswer ⟨1, 1⟩) := by
  have hreached : Reached twoModes "l\nll\nx".toList (new twoModes "l\nll\nx".toList).tryNext.1 :=
    .call .new .tryNext
  have hnext : (new twoModes "l\nll\nx".toList).tryNext.1.tryNext =
      (_, .error (.noMatch 'l' "OUTSIDE" ⟨⟨1, 1⟩, ⟨1, 2⟩⟩)) := rfl
  obtain ⟨-, hresumes⟩ := resumes_after_noMatch hreached
  obtain ⟨hagain, -, -, hanswers⟩ := hresumes _ _ _ _ hnext
  exact ⟨_, _, hreached, hnext, hagain, rfl, (hanswers 1 _).2 rfl⟩

/-- What is kept when nothing matches goes into the next token after a change of the mode, so the
scan does not go on as a new scan of the text to come. -/
theorem kept_after_noMatch :
    ∃ s', (new twoModes "kx".toList).tryNext =
        (s', .error (.noMatch 'x' "OUTSIDE" ⟨⟨0, 1⟩, ⟨0, 2⟩⟩)) ∧
      (s'.begin 1).answers [.tryNext] = [.ok (some ⟨3, "kx", ⟨⟨0, 0⟩, ⟨0, 2⟩⟩, false⟩)] ∧
      (s'.begin 1).answers [.tryNext] ≠
        ({ new twoModes s'.upcoming with mode := 1 }.answers [.tryNext]).map
          (shiftAnswer ⟨0, 1⟩) := by
  refine ⟨_, rfl, rfl, fun heq => ?_⟩
  have himage : [Except.ok (ε := ScanError) (some (ScannedToken.mk 3 "kx" ⟨⟨0, 0⟩, ⟨0, 2⟩⟩ false))] =
      [.ok (some ⟨3, "x", ⟨⟨0, 1⟩, ⟨0, 2⟩⟩, false⟩)] := heq
  simp at himage

end Scanner
end PredictiveParsing
