import PredictiveParsing.Proofs.TokenPlaces

/-!
# Scanning from another place

It makes no difference to a scan where its text begins. Two scanners that have the same text before
them and stand at different places answer whatever is asked of them alike, and the places in the
answers lie apart as the scanners do. Main statement: `Relocated.answers_eq`.
-/
namespace PredictiveParsing

namespace Position

variable {p q r : Position}

def shift (p q : Position) : Position :=
  if q.line = 0 then ⟨p.line, p.column + q.column⟩ else ⟨p.line + q.line, q.column⟩

@[simp] theorem origin_shift (q : Position) : origin.shift q = q := by
  by_cases hq : q.line = 0
  · rw [shift, if_pos hq, origin, Nat.zero_add, ← hq]
  · rw [shift, if_neg hq, origin, Nat.zero_add]

theorem shift_next (p q : Position) : p.shift q.next = (p.shift q).next := by
  by_cases hq : q.line = 0
  · simp only [shift, next, hq, if_true, Nat.add_assoc]
  · simp only [shift, next, hq, if_false]

theorem shift_after (p q : Position) (c : Char) : p.shift (q.after c) = (p.shift q).after c := by
  by_cases hc : c = '\n'
  · simp only [after, if_pos hc, shift, Nat.succ_ne_zero, if_false]
    split <;> simp_all [Nat.add_assoc]
  · simp only [after, if_neg hc, shift_next]

theorem shift_foldl_after (p q : Position) (cs : List Char) :
    p.shift (cs.foldl after q) = cs.foldl after (p.shift q) := by
  induction cs generalizing q with
  | nil => rfl
  | cons c cs ih => rw [List.foldl_cons, ih, shift_after, List.foldl_cons]

theorem shift_le_shift : p.shift q ≤ p.shift r ↔ q ≤ r := by
  simp only [le_def, shift]
  split <;> split <;> dsimp only <;> omega

theorem shift_min (p q r : Position) : p.shift (min q r) = min (p.shift q) (p.shift r) := by
  change p.shift (if q ≤ r then q else r) = if p.shift q ≤ p.shift r then _ else _
  simp only [shift_le_shift, apply_ite p.shift]

theorem shift_max (p q r : Position) : p.shift (max q r) = max (p.shift q) (p.shift r) := by
  change p.shift (if q ≤ r then r else q) = if p.shift q ≤ p.shift r then _ else _
  simp only [shift_le_shift, apply_ite p.shift]

end Position

def Span.shift (p : Position) (s : Span) : Span := ⟨p.shift s.start, p.shift s.stop⟩

@[simp] theorem Span.origin_shift (s : Span) : s.shift .origin = s := by
  rw [shift, Position.origin_shift, Position.origin_shift]

theorem Span.shift_merge (p : Position) (s t : Span) :
    (s.merge t).shift p = (s.shift p).merge (t.shift p) := by
  simp only [shift, merge, Position.shift_min, Position.shift_max]

def ScannedToken.shift (p : Position) (t : ScannedToken) : ScannedToken :=
  { t with span := t.span.shift p }

def ScanError.shift (p : Position) : ScanError → ScanError
  | noMatch found mode span => noMatch found mode (span.shift p)
  | unexpectedEof mode span => unexpectedEof mode (span.shift p)
  | cursor error => cursor error

namespace Scanner

variable {p : Position} {f f' s s' : Scanner}

def Match.shift (p : Position) : Match → Match
  | .found kind lexeme => .found kind lexeme
  | .atEnd => .atEnd
  | .failed error => .failed (error.shift p)

def missed (s : Scanner) : Match :=
  match s.upcoming with
  | c :: _ =>
    .failed (.noMatch c (s.table.modeName s.mode)
      { s.cursor.span with stop := s.cursor.span.stop.next })
  | [] => .atEnd

theorem missed_cases (s : Scanner) : s.missed = .atEnd ∨ ∃ e, s.missed = .failed e := by
  rw [missed]
  cases s.upcoming with
  | nil => exact .inl rfl
  | cons c cs => exact .inr ⟨_, rfl⟩

theorem span_of_tryMatch_eq {c : Char} {mode : String} {span : Span}
    (h : s.tryMatch = (s', .failed (.noMatch c mode span))) :
    span = { s'.cursor.span with stop := s'.cursor.span.stop.next } := by
  rw [tryMatch] at h
  split at h
  · cases h
  · obtain ⟨rfl, houtcome⟩ := Prod.mk.inj h
    rw [Run.outcome] at houtcome
    split at houtcome
    · cases houtcome
    · split at houtcome
      · cases houtcome
        rfl
      · cases houtcome

theorem tryMatch_of_found (hs : s.cursor.Ordered) {kind n : Nat}
    (h : s.table.longest? s.mode s.upcoming = some (kind, n)) :
    ∃ s', s.tryMatch = (s', .found kind (s.upcoming.take n)) ∧
      MovedOver s (s.upcoming.take n) s' := by
  have hattempt := tryMatch_attempted hs
  generalize s.tryMatch = r at hattempt
  cases hattempt with
  | found hfound hmoved =>
    rw [h] at hfound
    cases hfound
    exact ⟨_, rfl, hmoved⟩
  | noMatch hnone => rw [h] at hnone; cases hnone
  | atEnd hnone => rw [h] at hnone; cases hnone

theorem tryMatch_of_none (hs : s.cursor.Ordered)
    (h : s.table.longest? s.mode s.upcoming = none) :
    ∃ s', s.tryMatch = (s', s.missed) ∧ MovedOver s [] s' := by
  have hattempt := tryMatch_attempted hs
  generalize hr : s.tryMatch = r at hattempt
  cases hattempt with
  | found hfound => rw [h] at hfound; cases hfound
  | @noMatch s' c cs span _ hc hmoved =>
    refine ⟨s', ?_, hmoved⟩
    have hcursor : s'.cursor = s.cursor := hmoved.cursor
    have hspan := span_of_tryMatch_eq hr
    rw [hcursor] at hspan
    simp only [missed, hc, hspan]
  | atEnd _ hc hmoved =>
    refine ⟨_, ?_, hmoved⟩
    simp only [missed, hc]

inductive Call
  | begin (mode : Nat)
  | tryNext
  | next

def Call.run : Call → Scanner → Scanner × Except ScanError (Option ScannedToken)
  | .begin mode, s => (s.begin mode, .ok none)
  | .tryNext, s => s.tryNext
  | .next, s =>
    match s.next with
    | (s, none) => (s, .ok none)
    | (s, some (.ok token)) => (s, .ok (some token))
    | (s, some (.error e)) => (s, .error e)

def answers : Scanner → List Call → List (Except ScanError (Option ScannedToken))
  | _, [] => []
  | s, call :: calls => (call.run s).2 :: (call.run s).1.answers calls

def shiftResult {α : Type} (p : Position) (place : α → α) : Except ScanError α → Except ScanError α
  | .ok a => .ok (place a)
  | .error e => .error (e.shift p)

def shiftAnswer (p : Position) :
    Except ScanError (Option ScannedToken) → Except ScanError (Option ScannedToken) :=
  shiftResult p (Option.map (ScannedToken.shift p))

/-- `s` is `f` with its text at `p`. Neither the offset nor the lines crossed nor the statistics
are compared: no answer tells of them. -/
structure Relocated (p : Position) (f s : Scanner) : Prop where
  table : s.table = f.table
  mode : s.mode = f.mode
  image : s.image = f.image
  imageSpan : s.imageSpan = f.imageSpan.map (Span.shift p)
  finished : s.finished = f.finished
  upcoming : s.upcoming = f.upcoming
  span : s.cursor.span = f.cursor.span.shift p
  ordered : f.cursor.Ordered

namespace Relocated

theorem target_ordered (h : Relocated p f s) : s.cursor.Ordered := by
  rw [Cursor.Ordered, h.span]
  exact Position.shift_le_shift.2 h.ordered

theorem longest?_eq (h : Relocated p f s) :
    s.table.longest? s.mode s.upcoming = f.table.longest? f.mode f.upcoming := by
  rw [h.table, h.mode, h.upcoming]

theorem movedOver (h : Relocated p f s) {cs : List Char} (hf : MovedOver f cs f')
    (hs : MovedOver s cs s') : Relocated p f' s' where
  table := by rw [hs.table, h.table, hf.table]
  mode := by rw [hs.mode, h.mode, hf.mode]
  image := by rw [hs.image, h.image, hf.image]
  imageSpan := by rw [hs.imageSpan, h.imageSpan, hf.imageSpan]
  finished := by rw [hs.finished, h.finished, hf.finished]
  upcoming := List.append_cancel_left (hs.upcoming.symm.trans (h.upcoming.trans hf.upcoming))
  span := by
    rw [hs.cursor, hf.cursor, Cursor.span_advanceAll, Cursor.span_advanceAll, h.span]
    simp only [Span.shift, Position.shift_foldl_after]
  ordered := by
    rw [hf.cursor]
    exact h.ordered.advanceAll cs

theorem begin (h : Relocated p f s) (mode : Nat) :
    Relocated p (f.begin mode) (s.begin mode) :=
  ⟨h.table, rfl, h.image, h.imageSpan, h.finished, h.upcoming, h.span, h.ordered⟩

theorem ended (h : Relocated p f s) :
    Relocated p { f with finished := true } { s with finished := true } :=
  ⟨h.table, h.mode, h.image, h.imageSpan, rfl, h.upcoming, h.span, h.ordered⟩

theorem imageSpanWith (h : Relocated p f s) (span : Span) :
    s.imageSpanWith (span.shift p) = (f.imageSpanWith span).shift p := by
  rw [Scanner.imageSpanWith, Scanner.imageSpanWith, h.imageSpan]
  cases f.imageSpan with
  | none => rfl
  | some pending => exact (Span.shift_merge p pending span).symm

theorem committed (h : Relocated p f s) {mode mode' : Nat} {image image' : String}
    {span span' : Option Span} (hmode : mode' = mode) (himage : image' = image)
    (hspan : span' = span.map (Span.shift p)) :
    Relocated p
      { f with cursor := f.cursor.commit, mode := mode, image := image, imageSpan := span }
      { s with cursor := s.cursor.commit, mode := mode', image := image', imageSpan := span' } where
  table := h.table
  mode := hmode
  image := himage
  imageSpan := hspan
  finished := h.finished
  upcoming := h.upcoming
  span := by
    simp only [Cursor.commit, h.span]
    rfl
  ordered := .commit _

theorem settle (h : Relocated p f s) (kind : Nat) (lexeme : List Char) :
    Relocated p (f.settle kind lexeme).1 (s.settle kind lexeme).1 ∧
      (s.settle kind lexeme).2 = (f.settle kind lexeme).2.map (ScannedToken.shift p) := by
  have hmode : (s.table.nextMode? kind).getD s.mode = (f.table.nextMode? kind).getD f.mode := by
    rw [h.table, h.mode]
  have himage : s.image ++ String.ofList lexeme = f.image ++ String.ofList lexeme := by
    rw [h.image]
  have hspan : s.imageSpanWith s.cursor.span = (f.imageSpanWith f.cursor.span).shift p := by
    rw [h.span, h.imageSpanWith]
  have htoken (special : Bool) :
      some (ScannedToken.mk kind (s.image ++ String.ofList lexeme)
        (s.imageSpanWith s.cursor.span) special) =
      (some (ScannedToken.mk kind (f.image ++ String.ofList lexeme)
        (f.imageSpanWith f.cursor.span) special)).map (ScannedToken.shift p) := by
    rw [himage, hspan]
    rfl
  have hdisposition : s.table.disposition kind = f.table.disposition kind := by rw [h.table]
  simp only [Scanner.settle, hdisposition]
  cases f.table.disposition kind with
  | skip => exact ⟨h.committed hmode rfl rfl, rfl⟩
  | more => exact ⟨h.committed hmode himage (congrArg some hspan), rfl⟩
  | token => exact ⟨h.committed hmode rfl rfl, htoken false⟩
  | special => exact ⟨h.committed hmode rfl rfl, htoken true⟩

theorem finish (h : Relocated p f s) :
    Relocated p f.finish.1 s.finish.1 ∧
      s.finish.2 = shiftResult p (ScannedToken.shift p) f.finish.2 := by
  have hspan : s.imageSpan.getD s.cursor.span =
      (f.imageSpan.getD f.cursor.span).shift p := by
    rw [h.imageSpan, h.span]
    cases f.imageSpan <;> rfl
  by_cases hempty : f.image.isEmpty = true
  · have hempty' : s.image.isEmpty = true := by rwa [h.image]
    simp only [Scanner.finish, if_pos hempty, if_pos hempty', h.span]
    exact ⟨h.ended, rfl⟩
  · have hempty' : ¬ s.image.isEmpty = true := by rwa [h.image]
    have hmode : s.table.modeName s.mode = f.table.modeName f.mode := by rw [h.table, h.mode]
    simp only [Scanner.finish, if_neg hempty, if_neg hempty', hspan, hmode]
    exact ⟨h.ended, rfl⟩

theorem missed_eq (h : Relocated p f s) : s.missed = f.missed.shift p := by
  rw [missed, missed, h.upcoming, h.table, h.mode, h.span]
  cases f.upcoming with
  | nil => rfl
  | cons c cs => simp only [Match.shift, ScanError.shift, Span.shift, Position.shift_next]

theorem scanToken (fuel : Nat) (h : Relocated p f s) :
    Relocated p (f.scanToken fuel).1 (s.scanToken fuel).1 ∧
      (s.scanToken fuel).2 = shiftResult p (ScannedToken.shift p) (f.scanToken fuel).2 := by
  induction fuel generalizing f s with
  | zero => exact h.finish
  | succ fuel ih =>
    cases hlongest : f.table.longest? f.mode f.upcoming with
    | none =>
      obtain ⟨f', hf, hfmoved⟩ := tryMatch_of_none h.ordered hlongest
      obtain ⟨s', hs, hsmoved⟩ := tryMatch_of_none h.target_ordered (h.longest?_eq.trans hlongest)
      have hmoved := h.movedOver hfmoved hsmoved
      rw [Scanner.scanToken, Scanner.scanToken, hf, hs, h.missed_eq]
      rcases missed_cases f with hend | ⟨e, hfailed⟩
      · rw [hend]
        exact hmoved.finish
      · rw [hfailed]
        exact ⟨hmoved, rfl⟩
    | some best =>
      obtain ⟨kind, n⟩ := best
      obtain ⟨f', hf, hfmoved⟩ := tryMatch_of_found h.ordered hlongest
      obtain ⟨s', hs, hsmoved⟩ := tryMatch_of_found h.target_ordered (h.longest?_eq.trans hlongest)
      rw [h.upcoming] at hs hsmoved
      have hsettled := (h.movedOver hfmoved hsmoved).settle kind (f.upcoming.take n)
      rw [Scanner.scanToken, Scanner.scanToken, hf, hs]
      dsimp only
      generalize f'.settle kind (f.upcoming.take n) = rf at hsettled ⊢
      generalize s'.settle kind (f.upcoming.take n) = rs at hsettled ⊢
      obtain ⟨f'', token?⟩ := rf
      obtain ⟨s'', token'?⟩ := rs
      obtain ⟨hnext, rfl⟩ := hsettled
      cases token? with
      | some token => exact ⟨hnext, rfl⟩
      | none => exact ih hnext

theorem tryNext (h : Relocated p f s) :
    Relocated p f.tryNext.1 s.tryNext.1 ∧ s.tryNext.2 = shiftAnswer p f.tryNext.2 := by
  rw [Scanner.tryNext, Scanner.tryNext, h.finished, h.upcoming]
  by_cases hfinished : f.finished = true
  · rw [if_pos hfinished, if_pos hfinished]
    exact ⟨h, rfl⟩
  · rw [if_neg hfinished, if_neg hfinished]
    obtain ⟨hnext, hresult⟩ := h.scanToken (f.upcoming.length + 1)
    generalize f.scanToken (f.upcoming.length + 1) = rf at hnext hresult ⊢
    generalize s.scanToken (f.upcoming.length + 1) = rs at hnext hresult ⊢
    obtain ⟨f', result⟩ := rf
    obtain ⟨s', result'⟩ := rs
    obtain rfl := hresult
    cases result with
    | ok token => exact ⟨hnext, rfl⟩
    | error e => exact ⟨hnext, rfl⟩

theorem next (h : Relocated p f s) :
    Relocated p (Call.next.run f).1 (Call.next.run s).1 ∧
      (Call.next.run s).2 = shiftAnswer p (Call.next.run f).2 := by
  obtain ⟨hnext, hresult⟩ := h.tryNext
  rw [Call.run, Call.run, Scanner.next, Scanner.next]
  generalize f.tryNext = rf at hnext hresult ⊢
  generalize s.tryNext = rs at hnext hresult ⊢
  obtain ⟨f', result⟩ := rf
  obtain ⟨s', result'⟩ := rs
  obtain rfl := hresult
  cases result with
  | error e => exact ⟨hnext.ended, rfl⟩
  | ok token? =>
    cases token? with
    | none => exact ⟨hnext, rfl⟩
    | some token => exact ⟨hnext, rfl⟩

theorem run (h : Relocated p f s) (call : Call) :
    Relocated p (call.run f).1 (call.run s).1 ∧
      (call.run s).2 = shiftAnswer p (call.run f).2 := by
  cases call with
  | begin mode => exact ⟨h.begin mode, rfl⟩
  | tryNext => exact h.tryNext
  | next => exact h.next

theorem answers_eq (h : Relocated p f s) (calls : List Call) :
    s.answers calls = (f.answers calls).map (shiftAnswer p) := by
  induction calls generalizing f s with
  | nil => rfl
  | cons call calls ih =>
    obtain ⟨hrun, hanswer⟩ := h.run call
    rw [answers, answers, List.map_cons, hanswer, ih hrun]

end Relocated

end Scanner
end PredictiveParsing
