import Mathlib.Data.List.Induction
import PredictiveParsing.Proofs.CursorUndo
import PredictiveParsing.Scanner.Scanner

/-!
# Tokenization by the longest match

The items of a scan, said by recursion on the characters that remain: the longest beginning that the
automaton of the current mode accepts is taken off, its kind decides what becomes of it, and the
rest is tokenized in the mode that the kind leads to. There is no cursor, no character is given
back, and a match is looked for by its length from the longest down. Main statement: `items_new`
says that a scanner comes to its end and yields exactly these items.
-/
namespace PredictiveParsing

namespace ScanTable

def runFrom? (t : ScanTable) (mode : Nat) : (state : Nat) → List Char → Option Nat
  | state, [] => some state
  | state, c :: cs => (t.next? mode state c).bind fun state => t.runFrom? mode state cs

def kindOf? (t : ScanTable) (mode : Nat) (cs : List Char) : Option Nat :=
  (t.runFrom? mode (t.start mode) cs).bind (t.accept? mode)

def longestWithin? (t : ScanTable) (mode : Nat) (cs : List Char) : (n : Nat) → Option (Nat × Nat)
  | 0 => none
  | n + 1 =>
    match t.kindOf? mode (cs.take (n + 1)) with
    | some kind => some (kind, n + 1)
    | none => t.longestWithin? mode cs n

def longest? (t : ScanTable) (mode : Nat) (cs : List Char) : Option (Nat × Nat) :=
  t.longestWithin? mode cs cs.length

theorem longestWithin?_bounds {t : ScanTable} {mode : Nat} {cs : List Char} {m kind n : Nat}
    (h : t.longestWithin? mode cs m = some (kind, n)) : 0 < n ∧ n ≤ m := by
  induction m with
  | zero => simp [longestWithin?] at h
  | succ m ih =>
    rw [longestWithin?] at h
    split at h
    · simp only [Option.some.injEq, Prod.mk.injEq] at h
      omega
    · have := ih h
      omega

theorem longest?_bounds {t : ScanTable} {mode : Nat} {cs : List Char} {kind n : Nat}
    (h : t.longest? mode cs = some (kind, n)) : 0 < n ∧ n ≤ cs.length :=
  longestWithin?_bounds h

theorem runFrom?_append (t : ScanTable) (mode state : Nat) (cs ds : List Char) :
    t.runFrom? mode state (cs ++ ds) =
      (t.runFrom? mode state cs).bind fun state => t.runFrom? mode state ds := by
  induction cs generalizing state with
  | nil => rfl
  | cons c cs ih =>
    rw [List.cons_append, runFrom?, runFrom?]
    cases t.next? mode state c with
    | none => rfl
    | some state => exact ih state

theorem longestWithin?_take (t : ScanTable) (mode : Nat) (cs ds : List Char) :
    ∀ n ≤ cs.length, t.longestWithin? mode (cs ++ ds) n = t.longestWithin? mode cs n := by
  intro n hn
  induction n with
  | zero => rfl
  | succ n ih =>
    rw [longestWithin?, longestWithin?, ih (by omega), List.take_append_of_le_length hn]

theorem longestWithin?_dead {t : ScanTable} {mode : Nat} {cs ds : List Char}
    (h : t.runFrom? mode (t.start mode) cs = none) (n : Nat) :
    t.longestWithin? mode (cs ++ ds) (cs.length + n) =
      t.longestWithin? mode (cs ++ ds) cs.length := by
  induction n with
  | zero => rfl
  | succ n ih =>
    have hnone : t.kindOf? mode ((cs ++ ds).take (cs.length + n + 1)) = none := by
      rw [Nat.add_assoc, List.take_length_add_append, kindOf?, runFrom?_append, h]
      rfl
    rw [← Nat.add_assoc, longestWithin?, hnone]
    exact ih

end ScanTable

inductive StreamItem
  | token (kind : Nat) (image : String) (special : Bool)
  | noMatch (found : Char) (mode : String)
  | unexpectedEof (mode : String)
  | cursorFault
deriving DecidableEq

namespace StreamItem

def ofToken (t : ScannedToken) : StreamItem := token t.kind t.image t.special

def ofError : ScanError → StreamItem
  | .noMatch found mode _ => noMatch found mode
  | .unexpectedEof mode _ => unexpectedEof mode
  | .cursor _ => cursorFault

def ofResult : Except ScanError ScannedToken → StreamItem
  | .ok t => ofToken t
  | .error e => ofError e

end StreamItem

/-- The items of a scan of `rest` that begins in `mode` with the text `pending` kept for the next
token. -/
def ScanTable.tokenize (t : ScanTable) (mode : Nat) (pending : String) (rest : List Char) :
    List StreamItem :=
  match h : t.longest? mode rest with
  | some (kind, n) =>
    have : 0 < n ∧ n ≤ rest.length := longest?_bounds h
    let image := pending ++ String.ofList (rest.take n)
    let mode := (t.nextMode? kind).getD mode
    match t.disposition kind with
    | .skip => t.tokenize mode "" (rest.drop n)
    | .more => t.tokenize mode image (rest.drop n)
    | .token => .token kind image false :: t.tokenize mode "" (rest.drop n)
    | .special => .token kind image true :: t.tokenize mode "" (rest.drop n)
  | none =>
    match rest with
    | c :: _ => [.noMatch c (t.modeName mode)]
    | [] =>
      if pending.isEmpty then [.token eofKind "" false] else [.unexpectedEof (t.modeName mode)]
termination_by rest.length

namespace ScanTable

theorem tokenize_found {t : ScanTable} {mode kind n : Nat} {pending : String} {rest : List Char}
    (h : t.longest? mode rest = some (kind, n)) :
    t.tokenize mode pending rest =
      let image := pending ++ String.ofList (rest.take n)
      let mode := (t.nextMode? kind).getD mode
      match t.disposition kind with
      | .skip => t.tokenize mode "" (rest.drop n)
      | .more => t.tokenize mode image (rest.drop n)
      | .token => .token kind image false :: t.tokenize mode "" (rest.drop n)
      | .special => .token kind image true :: t.tokenize mode "" (rest.drop n) := by
  rw [tokenize]
  split
  · next heq =>
    rw [h] at heq
    obtain ⟨rfl, rfl⟩ := Prod.mk.inj (Option.some.inj heq)
    rfl
  · next heq => rw [h] at heq; simp at heq

theorem tokenize_noMatch {t : ScanTable} {mode : Nat} {pending : String} {rest : List Char}
    (h : t.longest? mode rest = none) {c : Char} {cs : List Char} (hc : rest = c :: cs) :
    t.tokenize mode pending rest = [.noMatch c (t.modeName mode)] := by
  subst hc
  rw [tokenize]
  split
  · next heq => rw [h] at heq; simp at heq
  · rfl

theorem tokenize_end (t : ScanTable) (mode : Nat) (pending : String) :
    t.tokenize mode pending [] =
      if pending.isEmpty then [.token eofKind "" false]
      else [.unexpectedEof (t.modeName mode)] := by
  rw [tokenize]
  rfl

theorem cursorFault_not_mem_tokenize (t : ScanTable) (mode : Nat) (pending : String)
    (rest : List Char) : .cursorFault ∉ t.tokenize mode pending rest := by
  fun_induction ScanTable.tokenize t mode pending rest <;> simp_all

end ScanTable

namespace Scanner

structure MovedOver (s : Scanner) (cs : List Char) (s' : Scanner) : Prop where
  table : s'.table = s.table
  mode : s'.mode = s.mode
  image : s'.image = s.image
  imageSpan : s'.imageSpan = s.imageSpan
  finished : s'.finished = s.finished
  upcoming : s.upcoming = cs ++ s'.upcoming
  cursor : s'.cursor = s.cursor.advanceAll cs

theorem read?_eq_none {s : Scanner} (h : s.read? = none) : s.upcoming = [] := by
  unfold read? at h
  split at h
  · simp at h
  · simp at h
  · next hu hi => rw [upcoming, hu, hi]; rfl

theorem MovedOver.of_read? {s s' : Scanner} {c : Char} (h : s.read? = some (c, s')) :
    MovedOver s [c] s' := by
  unfold read? at h
  split at h
  · next hu =>
    simp only [Option.some.injEq, Prod.mk.injEq] at h
    obtain ⟨rfl, rfl⟩ := h
    exact ⟨rfl, rfl, rfl, rfl, rfl, by rw [Scanner.upcoming, hu]; rfl, rfl⟩
  · next hu hi =>
    simp only [Option.some.injEq, Prod.mk.injEq] at h
    obtain ⟨rfl, rfl⟩ := h
    exact ⟨rfl, rfl, rfl, rfl, rfl, by rw [Scanner.upcoming, hu, hi]; rfl, rfl⟩
  · simp at h

theorem MovedOver.refl (s : Scanner) : MovedOver s [] s := ⟨rfl, rfl, rfl, rfl, rfl, rfl, rfl⟩

theorem MovedOver.trans {s s' s'' : Scanner} {cs ds : List Char} (h : MovedOver s cs s')
    (h' : MovedOver s' ds s'') : MovedOver s (cs ++ ds) s'' where
  table := h'.table.trans h.table
  mode := h'.mode.trans h.mode
  image := h'.image.trans h.image
  imageSpan := h'.imageSpan.trans h.imageSpan
  finished := h'.finished.trans h.finished
  upcoming := by rw [h.upcoming, h'.upcoming, List.append_assoc]
  cursor := by rw [h'.cursor, h.cursor, Cursor.advanceAll_append]

theorem giveBack_read {s : Scanner} {c : Cursor} (hc : c.Ordered) (cs ds : List Char)
    (hs : s.cursor = c.advanceAll (cs ++ ds)) :
    s.giveBack ds.length (ds.reverse ++ cs.reverse) = .ok
      ({ s with
          unread := ds ++ s.unread
          cursor := c.advanceAll cs
          stats := { s.stats with unreads := s.stats.unreads + ds.length } }, cs.reverse) := by
  induction ds using List.reverseRecOn generalizing s with
  | nil =>
    rw [List.append_nil] at hs
    simp only [List.length_nil, List.reverse_nil, List.nil_append, giveBack, Nat.add_zero, ← hs]
  | append_singleton ds d ih =>
    rw [← List.append_assoc, Cursor.advanceAll_concat] at hs
    have hback : s.unread1 d = .ok { s with
        unread := d :: s.unread
        cursor := c.advanceAll (cs ++ ds)
        stats := { s.stats with unreads := s.stats.unreads + 1 } } := by
      rw [unread1, hs, Cursor.retreat_advance (hc.advanceAll _)]
    rw [List.length_append, List.length_singleton, List.reverse_append, List.reverse_singleton,
      List.singleton_append, List.cons_append, giveBack, hback]
    refine (ih rfl).trans ?_
    simp only [List.append_assoc, List.singleton_append, Nat.add_assoc, Nat.add_comm 1]

namespace Run

def text (r : Run) : List Char := r.lexeme.reverse ++ r.scanner.upcoming

/-- What a run has found is right so far: its state is where its lexeme leads, and its best match is
the longest that the lexeme begins with. -/
structure Sound (r : Run) (t : ScanTable) (m : Nat) : Prop where
  table : r.scanner.table = t
  mode : r.scanner.mode = m
  state : t.runFrom? m (t.start m) r.lexeme.reverse = some r.state
  best : r.best = t.longestWithin? m r.lexeme.reverse r.lexeme.length

theorem Sound.start (s : Scanner) :
    Sound ⟨s, s.table.start s.mode, [], none⟩ s.table s.mode := ⟨rfl, rfl, rfl, rfl⟩

theorem Sound.best_le {r : Run} {t : ScanTable} {m : Nat} (h : r.Sound t m) (kind n : Nat)
    (hbest : r.best = some (kind, n)) : n ≤ r.lexeme.length :=
  (ScanTable.longestWithin?_bounds (h.best.symm.trans hbest)).2

theorem longestWithin?_snoc {r : Run} {t : ScanTable} {mode : Nat} (h : r.Sound t mode) {c : Char}
    {state : Nat} (hstate : t.next? mode r.state c = some state) :
    t.runFrom? mode (t.start mode) (c :: r.lexeme).reverse = some state ∧
      (match t.accept? mode state with
        | some kind => some (kind, (c :: r.lexeme).length)
        | none => r.best) =
          t.longestWithin? mode (c :: r.lexeme).reverse (c :: r.lexeme).length := by
  have hrun : t.runFrom? mode (t.start mode) (c :: r.lexeme).reverse = some state := by
    rw [List.reverse_cons, ScanTable.runFrom?_append, h.state]
    simp [ScanTable.runFrom?, hstate]
  have hkind : t.kindOf? mode ((c :: r.lexeme).reverse.take (r.lexeme.length + 1)) =
      t.accept? mode state := by
    rw [List.take_of_length_le (by simp), ScanTable.kindOf?, hrun]
    rfl
  refine ⟨hrun, ?_⟩
  rw [List.length_cons, ScanTable.longestWithin?, hkind]
  cases t.accept? mode state with
  | some kind => rfl
  | none =>
    rw [h.best, List.reverse_cons]
    exact (ScanTable.longestWithin?_take t mode _ [c] _
      (Nat.le_of_eq List.length_reverse.symm)).symm

/-- A run that is extended to its end has read a beginning of the text, and its best match is the
longest of the whole text. -/
theorem extend_spec (fuel : Nat) (r : Run) {t : ScanTable} {mode : Nat} (h : r.Sound t mode)
    (hfuel : r.scanner.upcoming.length ≤ fuel) :
    ∃ cs, MovedOver r.scanner cs (extend fuel r).scanner ∧
      (extend fuel r).lexeme = cs.reverse ++ r.lexeme ∧
      (extend fuel r).best = t.longestWithin? mode r.text r.text.length ∧
      (∀ kind n, (extend fuel r).best = some (kind, n) → n ≤ (extend fuel r).lexeme.length) ∧
      (r.scanner.upcoming ≠ [] → cs ≠ []) := by
  induction fuel generalizing r with
  | zero =>
    have hnil : r.scanner.upcoming = [] := List.eq_nil_of_length_eq_zero (Nat.le_zero.1 hfuel)
    refine ⟨[], .refl _, rfl, ?_, h.best_le, fun hne => absurd hnil hne⟩
    rw [text, hnil, List.append_nil, List.length_reverse]
    exact h.best
  | succ fuel ih =>
    rw [extend]
    cases hread : r.scanner.read? with
    | none =>
      have hnil := read?_eq_none hread
      refine ⟨[], .refl _, rfl, ?_, h.best_le, fun hne => absurd hnil hne⟩
      rw [text, hnil, List.append_nil, List.length_reverse]
      exact h.best
    | some pair =>
      obtain ⟨c, scanner⟩ := pair
      have hmoved := MovedOver.of_read? hread
      have htext : r.text = (c :: r.lexeme).reverse ++ scanner.upcoming := by
        rw [text, hmoved.upcoming, List.reverse_cons, List.append_assoc]
      cases hnext : t.next? mode r.state c with
      | none =>
        simp only [h.table, h.mode, hnext]
        refine ⟨[c], hmoved, rfl, ?_,
          fun kind n hbest => Nat.le_succ_of_le (h.best_le kind n hbest),
          fun _ => List.cons_ne_nil _ _⟩
        -- `c` is still read, but nothing that goes on with it is a match
        have hdead : t.runFrom? mode (t.start mode) (c :: r.lexeme).reverse = none := by
          rw [List.reverse_cons, ScanTable.runFrom?_append, h.state]
          simp [ScanTable.runFrom?, hnext]
        have hnone :
            t.kindOf? mode ((c :: r.lexeme).reverse.take (r.lexeme.length + 1)) = none := by
          rw [List.take_of_length_le (by simp), ScanTable.kindOf?, hdead]
          rfl
        rw [htext, List.length_append, ScanTable.longestWithin?_dead hdead,
          ScanTable.longestWithin?_take t mode _ _ _ (Nat.le_refl _), List.length_reverse,
          List.length_cons, ScanTable.longestWithin?, hnone, h.best, List.reverse_cons]
        exact (ScanTable.longestWithin?_take t mode _ [c] _
          (Nat.le_of_eq List.length_reverse.symm)).symm
      | some state =>
        simp only [h.table, h.mode, hnext]
        obtain ⟨hrun, hbest⟩ := longestWithin?_snoc h hnext
        have hsound : Sound ⟨scanner, state, c :: r.lexeme, match t.accept? mode state with
            | some kind => some (kind, (c :: r.lexeme).length)
            | none => r.best⟩ t mode :=
          ⟨hmoved.table.trans h.table, hmoved.mode.trans h.mode, hrun, hbest⟩
        have hlen : scanner.upcoming.length ≤ fuel := by
          rw [hmoved.upcoming] at hfuel
          simpa using hfuel
        obtain ⟨cs, hcs, hlexeme, hlongest, hlast, -⟩ := ih _ hsound hlen
        refine ⟨c :: cs, hmoved.trans hcs, hlexeme.trans (by simp), ?_, hlast,
          fun _ => List.cons_ne_nil _ _⟩
        rw [htext]
        exact hlongest

end Run

theorem attempt_best (s : Scanner) : s.attempt.best = s.table.longest? s.mode s.upcoming := by
  obtain ⟨cs, -, -, hbest, -, -⟩ := Run.extend_spec _ _ (Run.Sound.start s) (Nat.le_refl _)
  exact hbest

theorem attempt_giveBack {s : Scanner} (hs : s.cursor.Ordered) :
    ∃ s', s.attempt.scanner.giveBack (s.attempt.lexeme.length - s.attempt.kept) s.attempt.lexeme =
        .ok (s', (s.upcoming.take s.attempt.kept).reverse) ∧
      MovedOver s (s.upcoming.take s.attempt.kept) s' ∧
      (s.attempt.kept = 0 → s'.unread.head? = s.upcoming.head?) := by
  obtain ⟨cs, hmoved, hlexeme, -, hlast, hread⟩ :=
    Run.extend_spec _ _ (Run.Sound.start s) (Nat.le_refl _)
  change MovedOver s cs s.attempt.scanner at hmoved
  change s.attempt.lexeme = cs.reverse ++ [] at hlexeme
  change ∀ kind n, s.attempt.best = some (kind, n) → n ≤ s.attempt.lexeme.length at hlast
  rw [List.append_nil] at hlexeme
  have hkept : s.attempt.kept ≤ cs.length := by
    rw [Run.kept]
    cases hbest : s.attempt.best with
    | none => exact Nat.zero_le _
    | some best =>
      have := hlast best.1 best.2 hbest
      rwa [hlexeme, List.length_reverse] at this
  generalize hn : s.attempt.kept = n at hkept ⊢
  have htake : s.upcoming.take n = cs.take n := by
    rw [hmoved.upcoming, List.take_append_of_le_length hkept]
  have hsplit : cs.take n ++ cs.drop n = cs := List.take_append_drop n cs
  have hback := giveBack_read hs (cs.take n) (cs.drop n) (hsplit.symm ▸ hmoved.cursor)
  rw [← List.reverse_append, hsplit, List.length_drop] at hback
  rw [hlexeme, List.length_reverse, htake]
  refine ⟨_, hback, ?_, fun hzero => ?_⟩
  · refine ⟨hmoved.table, hmoved.mode, hmoved.image, hmoved.imageSpan, hmoved.finished, ?_, rfl⟩
    have hrest : (cs.drop n ++ s.attempt.scanner.unread) ++ s.attempt.scanner.input =
        cs.drop n ++ s.attempt.scanner.upcoming := List.append_assoc ..
    exact hmoved.upcoming.trans ((congrArg (· ++ _) hsplit.symm).trans
      ((List.append_assoc ..).trans (congrArg (cs.take n ++ ·) hrest.symm)))
  · -- nothing was kept, so whatever was read is given back to its first character
    rw [hzero, List.drop_zero]
    cases cs with
    | nil =>
      have hnil : s.upcoming = [] := by
        by_contra hne
        exact hread hne rfl
      have hrest := hmoved.upcoming
      rw [hnil, List.nil_append] at hrest
      rw [hnil, List.nil_append, (List.append_eq_nil_iff.1 hrest.symm).1]
    | cons c cs => rw [hmoved.upcoming]; rfl

theorem MovedOver.of_counted {s s' : Scanner} {cs : List Char} (h : MovedOver s.counted cs s') :
    MovedOver s cs s' :=
  ⟨h.table, h.mode, h.image, h.imageSpan, h.finished, h.upcoming, h.cursor⟩

inductive Attempted (s : Scanner) : Scanner × Match → Prop
  | found {s' : Scanner} {kind n : Nat} (h : s.table.longest? s.mode s.upcoming = some (kind, n))
      (hs : MovedOver s (s.upcoming.take n) s') : Attempted s (s', .found kind (s.upcoming.take n))
  | noMatch {s' : Scanner} {c : Char} {cs : List Char} {span : Span}
      (h : s.table.longest? s.mode s.upcoming = none) (hc : s.upcoming = c :: cs)
      (hs : MovedOver s [] s') :
      Attempted s (s', .failed (.noMatch c (s.table.modeName s.mode) span))
  | atEnd {s' : Scanner} (h : s.table.longest? s.mode s.upcoming = none) (hc : s.upcoming = [])
      (hs : MovedOver s [] s') : Attempted s (s', .atEnd)

theorem tryMatch_attempted {s : Scanner} (hs : s.cursor.Ordered) : Attempted s s.tryMatch := by
  obtain ⟨s', hback, hmoved, hhead⟩ := attempt_giveBack (s := s.counted) hs
  have hbest := attempt_best s.counted
  have hmoved := hmoved.of_counted
  rw [tryMatch]
  simp only [hback]
  rw [Run.outcome]
  cases hlongest : s.table.longest? s.mode s.upcoming with
  | some best =>
    obtain ⟨kind, n⟩ := best
    have hrun : s.counted.attempt.best = some (kind, n) := hbest.trans hlongest
    have hkept : s.counted.attempt.kept = n := by rw [Run.kept, hrun]; rfl
    rw [hrun, List.reverse_reverse]
    rw [hkept] at hmoved ⊢
    exact .found hlongest hmoved
  | none =>
    have hrun : s.counted.attempt.best = none := hbest.trans hlongest
    have hkept : s.counted.attempt.kept = 0 := by rw [Run.kept, hrun]; rfl
    have hnext := hhead hkept
    rw [hkept, List.take_zero] at hmoved
    rw [hrun]
    cases hunread : s'.unread with
    | cons c unread =>
      rw [hunread, List.head?_cons] at hnext
      obtain ⟨cs, hcs⟩ := List.head?_eq_some_iff.1 hnext.symm
      simp only [hmoved.table, hmoved.mode]
      exact .noMatch hlongest hcs hmoved
    | nil =>
      rw [hunread, List.head?_nil] at hnext
      exact .atEnd hlongest (List.head?_eq_none_iff.1 hnext.symm) hmoved

def remaining (s : Scanner) : List StreamItem := s.table.tokenize s.mode s.image s.upcoming

theorem settle_place (s : Scanner) (kind : Nat) (lexeme : List Char) :
    (s.settle kind lexeme).1.cursor = s.cursor.commit ∧
      (s.settle kind lexeme).1.upcoming = s.upcoming ∧
      (s.settle kind lexeme).1.finished = s.finished := by
  cases hd : s.table.disposition kind <;> (simp only [settle, hd]; exact ⟨trivial, rfl, trivial⟩)

theorem settle_remaining {s s' : Scanner} {kind n : Nat}
    (h : s.table.longest? s.mode s.upcoming = some (kind, n))
    (hs : MovedOver s (s.upcoming.take n) s') :
    s.remaining = ((s'.settle kind (s.upcoming.take n)).2.map StreamItem.ofToken).toList ++
      (s'.settle kind (s.upcoming.take n)).1.remaining := by
  have hrest : s'.upcoming = s.upcoming.drop n := by
    have hsplit := hs.upcoming
    conv_lhs at hsplit => rw [← List.take_append_drop n s.upcoming]
    exact (List.append_cancel_left hsplit).symm
  rw [remaining, ScanTable.tokenize_found h, ← hrest, ← hs.mode, ← hs.image, ← hs.table]
  generalize s.upcoming.take n = lexeme
  cases hd : s'.table.disposition kind <;> simp only [settle, hd] <;> rfl

inductive Scanned (s : Scanner) : Scanner × Except ScanError ScannedToken → Prop
  | token {s' : Scanner} {t : ScannedToken} (h : s.remaining = .ofToken t :: s'.remaining)
      (hlt : s'.upcoming.length < s.upcoming.length) (hs : s'.cursor.Ordered)
      (hfinished : s'.finished = false) : Scanned s (s', .ok t)
  | last {s' : Scanner} {t : ScannedToken} (h : s.remaining = [.ofToken t])
      (hfinished : s'.finished = true) : Scanned s (s', .ok t)
  | failed {s' : Scanner} {e : ScanError} (h : s.remaining = [.ofError e]) :
      Scanned s (s', .error e)

theorem Scanned.of_settled {s s' : Scanner} (h : s.remaining = s'.remaining)
    (hlt : s'.upcoming.length < s.upcoming.length) {r : Scanner × Except ScanError ScannedToken}
    (hr : Scanned s' r) : Scanned s r := by
  cases hr with
  | token h' hlt' hs hfinished => exact .token (h.trans h') (Nat.lt_trans hlt' hlt) hs hfinished
  | last h' hfinished => exact .last (h.trans h') hfinished
  | failed h' => exact .failed (h.trans h')

theorem finish_scanned {s s' : Scanner} (hnil : s.upcoming = []) (hs : MovedOver s [] s') :
    Scanned s s'.finish := by
  have hremaining := ScanTable.tokenize_end s.table s.mode s.image
  rw [← hnil] at hremaining
  unfold finish
  by_cases hempty : s.image.isEmpty = true
  · rw [if_pos hempty] at hremaining
    simp only [hs.image, if_pos hempty]
    exact .last hremaining rfl
  · rw [if_neg hempty] at hremaining
    simp only [hs.image, if_neg hempty, hs.table, hs.mode]
    exact .failed hremaining

theorem scanToken_scanned (fuel : Nat) {s : Scanner} (hs : s.cursor.Ordered)
    (hfinished : s.finished = false) (hfuel : s.upcoming.length < fuel) :
    Scanned s (scanToken fuel s) := by
  induction fuel generalizing s with
  | zero => exact absurd hfuel (Nat.not_lt_zero _)
  | succ fuel ih =>
    have hattempt := tryMatch_attempted hs
    rw [scanToken]
    generalize s.tryMatch = r at hattempt
    cases hattempt with
    | @found s' kind n hlongest hmoved =>
      have hbounds := ScanTable.longest?_bounds hlongest
      have hremaining := settle_remaining hlongest hmoved
      obtain ⟨hcursor, hupcoming, hlive⟩ := settle_place s' kind (s.upcoming.take n)
      have hlt : (s'.settle kind (s.upcoming.take n)).1.upcoming.length < s.upcoming.length := by
        have hlen := congrArg List.length hmoved.upcoming
        rw [List.length_append, List.length_take] at hlen
        rw [hupcoming]
        omega
      have hordered : (s'.settle kind (s.upcoming.take n)).1.cursor.Ordered := by
        rw [hcursor]
        exact .commit _
      rw [hmoved.finished, hfinished] at hlive
      simp only
      generalize s'.settle kind (s.upcoming.take n) = settled at hremaining hordered hlive hlt ⊢
      obtain ⟨s'', token?⟩ := settled
      cases token? with
      | some token => exact .token hremaining hlt hordered hlive
      | none => exact .of_settled hremaining hlt (ih hordered hlive (by omega))
    | noMatch hlongest hc hmoved =>
      refine .failed ?_
      rw [remaining, ScanTable.tokenize_noMatch hlongest hc]
      rfl
    | atEnd _ hc hmoved => exact finish_scanned hc hmoved

theorem next_of_finished {s : Scanner} (h : s.finished = true) : s.next = (s, none) := by
  rw [next, tryNext, if_pos h]

theorem itemsWithin_of_finished {s : Scanner} (h : s.finished = true) (fuel : Nat) :
    itemsWithin fuel s = (s, []) := by
  cases fuel with
  | zero => rfl
  | succ fuel => rw [itemsWithin, next_of_finished h]

theorem itemsWithin_remaining (fuel : Nat) {s : Scanner} (hs : s.cursor.Ordered)
    (hfinished : s.finished = false) (hfuel : s.upcoming.length + 1 < fuel) :
    (itemsWithin fuel s).2.map StreamItem.ofResult = s.remaining ∧
      (itemsWithin fuel s).1.finished = true := by
  induction fuel generalizing s with
  | zero => exact absurd hfuel (Nat.not_lt_zero _)
  | succ fuel ih =>
    have hscanned := scanToken_scanned (s.upcoming.length + 1) hs hfinished (Nat.lt_succ_self _)
    have hlive : ¬ s.finished = true := by rw [hfinished]; exact Bool.false_ne_true
    rw [itemsWithin, next, tryNext, if_neg hlive]
    generalize scanToken (s.upcoming.length + 1) s = r at hscanned
    cases hscanned with
    | token hremaining hlt hordered hopen =>
      obtain ⟨hitems, hover⟩ := ih hordered hopen (by omega)
      exact ⟨(congrArg (_ :: ·) hitems).trans hremaining.symm, hover⟩
    | last hremaining hover =>
      simp only [itemsWithin_of_finished hover]
      exact ⟨hremaining.symm, hover⟩
    | @failed s' e hremaining =>
      have hover : ({ s' with finished := true } : Scanner).finished = true := rfl
      simp only [itemsWithin_of_finished hover]
      exact ⟨hremaining.symm, trivial⟩

/-- A scanner comes to its end after finitely many items, which are those that the longest match
gives; no character is given back where it cannot be. -/
theorem items_new (table : ScanTable) (input : List Char) :
    (new table input).items.2.map StreamItem.ofResult = table.tokenize table.initialMode "" input ∧
      (new table input).items.1.next.2 = none ∧
      ∀ e : CursorError, .error (.cursor e) ∉ (new table input).items.2 := by
  obtain ⟨hitems, hover⟩ := itemsWithin_remaining ((new table input).upcoming.length + 2)
    (s := new table input) Cursor.Ordered.new rfl (Nat.lt_succ_self _)
  refine ⟨hitems, ?_, fun e he => ?_⟩
  · rw [items, next_of_finished hover]
  · have hfault : StreamItem.cursorFault ∈ (new table input).items.2.map StreamItem.ofResult :=
      List.mem_map.2 ⟨_, he, rfl⟩
    rw [items, hitems] at hfault
    exact ScanTable.cursorFault_not_mem_tokenize _ _ _ _ hfault

end Scanner
end PredictiveParsing
