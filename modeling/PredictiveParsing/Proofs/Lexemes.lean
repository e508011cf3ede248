import Mathlib.Data.List.Forall2
import PredictiveParsing.Proofs.Tokenization

/-!
# Matches and the text they cover

The matches of a scan follow each other without a gap. A token is the stretch of the text from where
its first kept match begins to where its last match ends. What lies outside the tokens was skipped,
kept and then dropped by a skipped match, or was still pending or not matched when the scan failed.
-/
namespace PredictiveParsing

namespace Position

def behind (cs : List Char) : Position :=
  ⟨cs.count '\n', (cs.reverse.takeWhile (· ≠ '\n')).length⟩

theorem behind_concat (cs : List Char) (c : Char) : behind (cs ++ [c]) = (behind cs).after c := by
  by_cases hc : c = '\n'
  · simp [behind, after, hc]
  · simp [behind, after, next, hc]

theorem foldl_after_behind (cs ds : List Char) : ds.foldl after (behind cs) = behind (cs ++ ds) := by
  induction ds generalizing cs with
  | nil => rw [List.append_nil, List.foldl_nil]
  | cons d ds ih => rw [List.foldl_cons, ← behind_concat, ih, List.append_assoc]; rfl

theorem behind_le_append (cs ds : List Char) : behind cs ≤ behind (cs ++ ds) := by
  induction ds using List.reverseRecOn with
  | nil => rw [List.append_nil]; exact le_refl _
  | append_singleton ds d ih =>
    rw [← List.append_assoc, behind_concat]
    exact le_after ih d

theorem behind_take_le {a b : Nat} (h : a ≤ b) (cs : List Char) :
    behind (cs.take a) ≤ behind (cs.take b) := by
  obtain ⟨n, rfl⟩ := Nat.exists_eq_add_of_le h
  rw [List.take_add]
  exact behind_le_append _ _

end Position

def Span.ofOffsets (cs : List Char) (a b : Nat) : Span :=
  ⟨.behind (cs.take a), .behind (cs.take b)⟩

theorem Span.merge_ofOffsets {a m b : Nat} (ha : a ≤ m) (hb : m ≤ b) (cs : List Char) :
    (ofOffsets cs a m).merge (ofOffsets cs m b) = ofOffsets cs a b := by
  have hstart : min (Position.behind (cs.take a)) (.behind (cs.take m)) = .behind (cs.take a) :=
    if_pos (Position.behind_take_le ha cs)
  have hstop : max (Position.behind (cs.take m)) (.behind (cs.take b)) = .behind (cs.take b) :=
    if_pos (Position.behind_take_le hb cs)
  rw [merge, ofOffsets, ofOffsets, hstart, hstop]
  rfl

/-- The token is the stretch of the text between the two offsets of `place`, and its span says where
that is. -/
structure ScannedToken.StandsIn (input : List Char) (token : ScannedToken) (place : Nat × Nat) :
    Prop where
  le : place.1 ≤ place.2
  le_length : place.2 ≤ input.length
  image : token.image = String.ofList (input.extract place.1 place.2)
  span : token.span = .ofOffsets input place.1 place.2

structure Lexeme where
  kind : Nat
  start : Nat
  stop : Nat

def Lexeme.Covers (l : Lexeme) (j : Nat) : Prop := l.start ≤ j ∧ j < l.stop

namespace ScanTable

def lexemes (t : ScanTable) (mode offset : Nat) (rest : List Char) : List Lexeme :=
  match h : t.longest? mode rest with
  | some (kind, n) =>
    have : 0 < n ∧ n ≤ rest.length := longest?_bounds h
    ⟨kind, offset, offset + n⟩ ::
      t.lexemes ((t.nextMode? kind).getD mode) (offset + n) (rest.drop n)
  | none => []
termination_by rest.length

variable {t : ScanTable} {mode kind n : Nat} {rest : List Char}

theorem lexemes_found (h : t.longest? mode rest = some (kind, n)) (offset : Nat) :
    t.lexemes mode offset rest = ⟨kind, offset, offset + n⟩ ::
      t.lexemes ((t.nextMode? kind).getD mode) (offset + n) (rest.drop n) := by
  rw [lexemes]
  split
  · next heq =>
    rw [h] at heq
    obtain ⟨rfl, rfl⟩ := Prod.mk.inj (Option.some.inj heq)
    rfl
  · next heq => rw [h] at heq; cases heq

theorem lexemes_none (h : t.longest? mode rest = none) (offset : Nat) :
    t.lexemes mode offset rest = [] := by
  rw [lexemes]
  split
  · next heq => rw [h] at heq; cases heq
  · rfl

def Dropped (t : ScanTable) (ls : List Lexeme) (l : Lexeme) : Prop :=
  ∃ before after, ls = before ++ l :: after ∧
    (t.disposition l.kind = .skip ∨
      t.disposition l.kind = .more ∧ ∃ kept last later, after = kept ++ last :: later ∧
        (∀ k ∈ kept, t.disposition k.kind = .more) ∧ t.disposition last.kind = .skip)

def Pending (t : ScanTable) (ls : List Lexeme) (l : Lexeme) : Prop :=
  ∃ before after, ls = before ++ l :: after ∧
    ∀ k ∈ l :: after, t.disposition k.kind = .more

/-- What became of the character at offset `j` of a text with the matches `ls`, of which a scan has
made `items` with tokens at `places`. -/
inductive Accounted (t : ScanTable) (ls : List Lexeme)
    (items : List (Except ScanError ScannedToken)) (places : List (Nat × Nat)) (j : Nat) : Prop
  | token {a b : Nat} (h : (a, b) ∈ places) (ha : a ≤ j) (hb : j < b)
  | dropped {l : Lexeme} (h : t.Dropped ls l) (hl : l.Covers j)
  | pending {l : Lexeme} {e : ScanError} (he : items.getLast? = some (.error e))
      (h : t.Pending ls l) (hl : l.Covers j)
  | unmatched {e : ScanError} (he : items.getLast? = some (.error e)) (h : ∀ l ∈ ls, l.stop ≤ j)

/-- The items that a scan makes of the matches `ls`, which begin at offset `m`, where what is kept
for the next token begins at `a`; and the places of the tokens among the items. -/
inductive Laid (t : ScanTable) (input : List Char) : (a m : Nat) → List Lexeme →
    List (Except ScanError ScannedToken) → List (Nat × Nat) → Prop
  | skip {a : Nat} {l : Lexeme} {ls : List Lexeme} {items : List (Except ScanError ScannedToken)}
      {places : List (Nat × Nat)} (hd : t.disposition l.kind = .skip) (hlt : l.start < l.stop)
      (hle : l.stop ≤ input.length) (h : Laid t input l.stop l.stop ls items places) :
      Laid t input a l.start (l :: ls) items places
  | more {a : Nat} {l : Lexeme} {ls : List Lexeme} {items : List (Except ScanError ScannedToken)}
      {places : List (Nat × Nat)} (hd : t.disposition l.kind = .more) (hlt : l.start < l.stop)
      (hle : l.stop ≤ input.length) (h : Laid t input a l.stop ls items places) :
      Laid t input a l.start (l :: ls) items places
  | token {a : Nat} {l : Lexeme} {ls : List Lexeme} {items : List (Except ScanError ScannedToken)}
      {places : List (Nat × Nat)} (special : Bool)
      (hd : t.disposition l.kind = if special then .special else .token) (hlt : l.start < l.stop)
      (hle : l.stop ≤ input.length) (h : Laid t input l.stop l.stop ls items places) :
      Laid t input a l.start (l :: ls)
        (.ok ⟨l.kind, String.ofList (input.extract a l.stop), .ofOffsets input a l.stop, special⟩ ::
          items) ((a, l.stop) :: places)
  | eof : Laid t input input.length input.length []
      [.ok ⟨eofKind, "", .ofOffsets input input.length input.length, false⟩]
      [(input.length, input.length)]
  | failed {a m : Nat} (e : ScanError) : Laid t input a m [] [.error e] []

section Consequences

variable {t : ScanTable} {input : List Char} {a m j : Nat} {ls : List Lexeme}
  {items : List (Except ScanError ScannedToken)} {places : List (Nat × Nat)} {l : Lexeme}

theorem Dropped.append_left (h : t.Dropped ls l) (before : List Lexeme) :
    t.Dropped (before ++ ls) l := by
  obtain ⟨earlier, after, rfl, hafter⟩ := h
  exact ⟨before ++ earlier, after, (List.append_assoc ..).symm, hafter⟩

theorem Pending.append_left (h : t.Pending ls l) (before : List Lexeme) :
    t.Pending (before ++ ls) l := by
  obtain ⟨earlier, after, rfl, hafter⟩ := h
  exact ⟨before ++ earlier, after, (List.append_assoc ..).symm, hafter⟩

theorem Accounted.append_left (h : t.Accounted ls items places j) {before : List Lexeme}
    (hbefore : ∀ l ∈ before, l.stop ≤ j) (earlier : List (Except ScanError ScannedToken))
    (others : List (Nat × Nat)) :
    t.Accounted (before ++ ls) (earlier ++ items) (others ++ places) j := by
  have hlast {e : ScanError} (he : items.getLast? = some (.error e)) :
      (earlier ++ items).getLast? = some (.error e) := by
    rw [List.getLast?_append, he, Option.some_or]
  cases h with
  | token h ha hb => exact .token (List.mem_append_right _ h) ha hb
  | dropped h hl => exact .dropped (h.append_left before) hl
  | pending he h hl => exact .pending (hlast he) (h.append_left before) hl
  | unmatched he h =>
    refine .unmatched (hlast he) fun l hl => ?_
    exact (List.mem_append.1 hl).elim (hbefore l) (h l)

structure Kept (t : ScanTable) (a m : Nat) (kept : List Lexeme) : Prop where
  more : ∀ l ∈ kept, t.disposition l.kind = .more
  stop_le : ∀ l ∈ kept, l.stop ≤ m
  covers : ∀ j, a ≤ j → j < m → ∃ l ∈ kept, l.Covers j

theorem Kept.nil (t : ScanTable) (m : Nat) : t.Kept m m [] :=
  ⟨by simp, by simp, fun j hle hlt => absurd hlt (Nat.not_lt.2 hle)⟩

theorem Kept.stop_le_concat {kept : List Lexeme} (h : t.Kept a l.start kept)
    (hlt : l.start < l.stop) : ∀ k ∈ kept ++ [l], k.stop ≤ l.stop := by
  intro k hk
  rcases List.mem_append.1 hk with hk | hk
  · exact Nat.le_trans (h.stop_le k hk) (Nat.le_of_lt hlt)
  · exact Nat.le_of_eq (congrArg Lexeme.stop (List.mem_singleton.1 hk))

theorem Kept.concat {kept : List Lexeme} (h : t.Kept a l.start kept)
    (hd : t.disposition l.kind = .more) (hlt : l.start < l.stop) :
    t.Kept a l.stop (kept ++ [l]) := by
  refine ⟨?_, h.stop_le_concat hlt, fun j haj hj => ?_⟩
  · simpa [or_imp, forall_and, hd] using h.more
  · by_cases hjl : j < l.start
    · obtain ⟨k, hk, hkj⟩ := h.covers j haj hjl
      exact ⟨k, List.mem_append_left _ hk, hkj⟩
    · exact ⟨l, by simp, Nat.le_of_not_lt hjl, hj⟩

/-- Every character from where the kept matches begin is accounted for. The induction carries the
kept matches along until it comes to the match that decides what becomes of them. -/
theorem Laid.accounted (h : t.Laid input a m ls items places) {kept : List Lexeme}
    (hkept : t.Kept a m kept) (haj : a ≤ j) (hj : j < input.length) :
    t.Accounted (kept ++ ls) items places j := by
  induction h generalizing kept with
  | @skip a l ls items places hd hlt hle h ih =>
    by_cases hjl : j < l.stop
    · by_cases hjm : j < l.start
      · obtain ⟨k, hk, hkj⟩ := hkept.covers j haj hjm
        obtain ⟨before, after, rfl⟩ := List.append_of_mem hk
        refine .dropped ⟨before, after ++ l :: ls, by simp, .inr ⟨hkept.more k hk, ?_⟩⟩ hkj
        exact ⟨after, l, ls, rfl, fun k hk => hkept.more k (by simp [hk]), hd⟩
      · exact .dropped ⟨kept, ls, rfl, .inl hd⟩ ⟨Nat.le_of_not_lt hjm, hjl⟩
    · have hle : l.stop ≤ j := Nat.le_of_not_lt hjl
      rw [List.append_cons]
      exact (ih (.nil t _) hle).append_left
        (fun k hk => Nat.le_trans (hkept.stop_le_concat hlt k hk) hle) [] []
  | @more a l ls items places hd hlt hle h ih =>
    have hrest := ih (hkept.concat hd hlt) haj
    rwa [List.append_assoc] at hrest
  | @token a l ls items places special hd hlt hle h ih =>
    by_cases hjl : j < l.stop
    · exact .token List.mem_cons_self haj hjl
    · have hle : l.stop ≤ j := Nat.le_of_not_lt hjl
      rw [List.append_cons]
      exact (ih (.nil t _) hle).append_left
        (fun k hk => Nat.le_trans (hkept.stop_le_concat hlt k hk) hle) [_] [(a, l.stop)]
  | eof => exact absurd hj (Nat.not_lt.2 haj)
  | @failed a m e =>
    rw [List.append_nil]
    by_cases hjm : j < m
    · obtain ⟨k, hk, hkj⟩ := hkept.covers j haj hjm
      obtain ⟨before, after, rfl⟩ := List.append_of_mem hk
      exact .pending rfl
        ⟨before, after, rfl, fun k hk => hkept.more k (List.mem_append_right _ hk)⟩ hkj
    · exact .unmatched rfl fun l hl =>
        Nat.le_trans (hkept.stop_le l hl) (Nat.le_of_not_lt hjm)

theorem Laid.stands (h : t.Laid input a m ls items places) (ha : a ≤ m) :
    List.Forall₂ (ScannedToken.StandsIn input) (items.filterMap Except.toOption) places := by
  induction h with
  | skip hd hlt hle h ih => exact ih (Nat.le_refl _)
  | more hd hlt hle h ih => exact ih (Nat.le_trans ha (Nat.le_of_lt hlt))
  | token special hd hlt hle h ih =>
    exact .cons ⟨Nat.le_trans ha (Nat.le_of_lt hlt), hle, rfl, rfl⟩ (ih (Nat.le_refl _))
  | eof =>
    have himage : "" = String.ofList (input.extract input.length input.length) := by simp
    exact .cons ⟨Nat.le_refl _, Nat.le_refl _, himage, rfl⟩ .nil
  | failed e => exact .nil

theorem Laid.le_places (h : t.Laid input a m ls items places) (ha : a ≤ m) :
    ∀ p ∈ places, a ≤ p.1 := by
  induction h with
  | skip hd hlt hle h ih =>
    intro p hp
    have := ih (Nat.le_refl _) p hp
    omega
  | more hd hlt hle h ih => exact ih (Nat.le_trans ha (Nat.le_of_lt hlt))
  | token special hd hlt hle h ih =>
    intro p hp
    rcases List.mem_cons.1 hp with rfl | hp
    · exact Nat.le_refl _
    · have := ih (Nat.le_refl _) p hp
      omega
  | eof => simp
  | failed e => simp

theorem Laid.pairwise_places (h : t.Laid input a m ls items places) (ha : a ≤ m) :
    places.Pairwise fun p q => p.1 < p.2 ∧ p.2 ≤ q.1 := by
  induction h with
  | skip hd hlt hle h ih => exact ih (Nat.le_refl _)
  | more hd hlt hle h ih => exact ih (Nat.le_trans ha (Nat.le_of_lt hlt))
  | token special hd hlt hle h ih =>
    refine List.pairwise_cons.2 ⟨fun q hq => ?_, ih (Nat.le_refl _)⟩
    exact ⟨Nat.lt_of_le_of_lt ha hlt, h.le_places (Nat.le_refl _) q hq⟩
  | eof => exact List.pairwise_singleton _ _
  | failed e => exact .nil

theorem Laid.last (h : t.Laid input a m ls items places) :
    (∃ e, items.getLast? = some (.error e)) ∨
      ∃ token, items.getLast? = some (.ok token) ∧ token.kind = eofKind ∧
        places.getLast? = some (input.length, input.length) := by
  induction h with
  | skip hd hlt hle h ih => exact ih
  | more hd hlt hle h ih => exact ih
  | token special hd hlt hle h ih =>
    refine ih.imp ?_ ?_
    · rintro ⟨e, he⟩
      exact ⟨e, by rw [List.getLast?_cons, he]; rfl⟩
    · rintro ⟨token, htoken, hkind, hplace⟩
      exact ⟨token, by rw [List.getLast?_cons, htoken]; rfl, hkind,
        by rw [List.getLast?_cons, hplace]; rfl⟩
  | eof => exact .inr ⟨_, rfl, rfl, rfl⟩
  | failed e => exact .inl ⟨e, rfl⟩

end Consequences

end ScanTable

end PredictiveParsing
