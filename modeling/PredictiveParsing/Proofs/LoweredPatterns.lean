import PredictiveParsing.Pattern.OfRegex
import PredictiveParsing.Proofs.CodePoints
import PredictiveParsing.Proofs.PatternFaults

/-!
# The pattern of a regular expression

An expression without assertions has a pattern, which matches the same texts, refers to no other
definition, and has no faults but empty classes and repetitions beyond the limit. An expression with
assertions has none, and the first of them from the left is to blame. Main statement:
`toPattern_exact`.
-/
namespace PredictiveParsing

namespace Regex

mutual

def looks : Regex → List Look
  | .empty => []
  | .literal _ => []
  | .charClass _ _ => []
  | .look l => [l]
  | .repetition _ _ _ body => body.looks
  | .capture _ body => body.looks
  | .concat items => looksOf items
  | .alternation items => looksOf items

def looksOf : List Regex → List Look
  | [] => []
  | r :: rs => r.looks ++ looksOf rs

end

/-- The texts that an expression matches by itself. What an assertion asks for is not in the text
that it matches, so none is said to match. -/
inductive Matches : Regex → List Char → Prop
  | empty : Matches .empty []
  | literal (text : List Char) : Matches (.literal text) text
  | charClass {kind : ClassKind} {ranges : List Interval} {r : Interval} {d : Char}
      (hr : r ∈ ranges) (hlo : r.lo ≤ d.toNat) (hhi : d.toNat ≤ r.hi) :
      Matches (.charClass kind ranges) [d]
  | repetition {min : Nat} {max : Option Nat} {greedy : Bool} {body : Regex}
      {ws : List (List Char)} (hmin : min ≤ ws.length) (hmax : ∀ m ∈ max, ws.length ≤ m)
      (h : ∀ w ∈ ws, Matches body w) : Matches (.repetition min max greedy body) ws.flatten
  | capture {index : Nat} {body : Regex} {w : List Char} (h : Matches body w) :
      Matches (.capture index body) w
  | concat {parts : List (Regex × List Char)} (h : ∀ p ∈ parts, Matches p.1 p.2) :
      Matches (.concat (parts.map (·.1))) (parts.flatMap (·.2))
  | alternation {items : List Regex} {r : Regex} {w : List Char} (hr : r ∈ items)
      (h : Matches r w) : Matches (.alternation items) w

def ClassKind.Admits : ClassKind → Interval → Prop
  | unicode, r => r.lo ≤ r.hi ∧ r.lo.isValidChar ∧ r.hi.isValidChar
  | bytes, r => r.lo ≤ r.hi ∧ r.hi < 0x80

inductive WellFormed : Regex → Prop
  | empty : WellFormed .empty
  | literal (text : List Char) : WellFormed (.literal text)
  | charClass {kind : ClassKind} {ranges : List Interval} (h : ∀ r ∈ ranges, kind.Admits r) :
      WellFormed (.charClass kind ranges)
  | look (l : Look) : WellFormed (.look l)
  | repetition {min : Nat} {max : Option Nat} {greedy : Bool} {body : Regex}
      (hmax : ∀ m ∈ max, min ≤ m) (h : WellFormed body) :
      WellFormed (.repetition min max greedy body)
  | capture {index : Nat} {body : Regex} (h : WellFormed body) : WellFormed (.capture index body)
  | concat {items : List Regex} (h : ∀ r ∈ items, WellFormed r) : WellFormed (.concat items)
  | alternation {items : List Regex} (h : ∀ r ∈ items, WellFormed r) :
      WellFormed (.alternation items)

inductive Lowers : Regex → Pattern → Prop
  | empty : Lowers .empty (.seq [])
  | literal (text : List Char) : Lowers (.literal text) (.literal (String.ofList text))
  | charClass (kind : ClassKind) (ranges : List Interval) :
      Lowers (.charClass kind ranges) (.charClass ⟨ranges.map (ClassItem.ofInterval kind), false⟩)
  | repetition {min : Nat} {max : Option Nat} {greedy : Bool} {body : Regex} {p : Pattern}
      (h : Lowers body p) : Lowers (.repetition min max greedy body) (p.repetition min max)
  | capture {index : Nat} {body : Regex} {p : Pattern} (h : Lowers body p) :
      Lowers (.capture index body) p
  | concat {pairs : List (Regex × Pattern)} (h : ∀ q ∈ pairs, Lowers q.1 q.2) :
      Lowers (.concat (pairs.map (·.1))) (.seq (pairs.map (·.2)))
  | alternation {pairs : List (Regex × Pattern)} (h : ∀ q ∈ pairs, Lowers q.1 q.2) :
      Lowers (.alternation (pairs.map (·.1))) (.alt (pairs.map (·.2)))

mutual

theorem toPattern_cases (r : Regex) :
    (r.looks = [] ∧ ∃ p, r.toPattern = .ok p ∧ r.Lowers p) ∨
      ∃ l, r.looks.head? = some l ∧ r.toPattern = .error (.unsupported l.name) := by
  match r with
  | .empty => exact .inl ⟨rfl, _, rfl, .empty⟩
  | .literal text => exact .inl ⟨rfl, _, rfl, .literal text⟩
  | .charClass kind ranges => exact .inl ⟨rfl, _, rfl, .charClass kind ranges⟩
  | .look l => exact .inr ⟨l, rfl, rfl⟩
  | .repetition min max greedy body =>
    rw [looks, toPattern]
    rcases toPattern_cases body with ⟨hlooks, p, hp, hlowers⟩ | ⟨l, hl, he⟩
    · exact .inl ⟨hlooks, _, by rw [hp]; rfl, .repetition hlowers⟩
    · exact .inr ⟨l, hl, by rw [he]; rfl⟩
  | .capture index body =>
    rw [looks, toPattern]
    rcases toPattern_cases body with ⟨hlooks, p, hp, hlowers⟩ | hlook
    · exact .inl ⟨hlooks, p, hp, .capture hlowers⟩
    · exact .inr hlook
  | .concat items =>
    rw [looks, toPattern]
    rcases toPatterns_cases items with ⟨hlooks, pairs, rfl, hps, hlowers⟩ | ⟨l, hl, he⟩
    · exact .inl ⟨hlooks, _, by rw [hps]; rfl, .concat hlowers⟩
    · exact .inr ⟨l, hl, by rw [he]; rfl⟩
  | .alternation items =>
    rw [looks, toPattern]
    rcases toPatterns_cases items with ⟨hlooks, pairs, rfl, hps, hlowers⟩ | ⟨l, hl, he⟩
    · exact .inl ⟨hlooks, _, by rw [hps]; rfl, .alternation hlowers⟩
    · exact .inr ⟨l, hl, by rw [he]; rfl⟩

theorem toPatterns_cases (rs : List Regex) :
    (looksOf rs = [] ∧ ∃ pairs : List (Regex × Pattern), pairs.map (·.1) = rs ∧
      toPatterns rs = .ok (pairs.map (·.2)) ∧ ∀ q ∈ pairs, q.1.Lowers q.2) ∨
      ∃ l, (looksOf rs).head? = some l ∧ toPatterns rs = .error (.unsupported l.name) := by
  match rs with
  | [] => exact .inl ⟨rfl, [], rfl, rfl, by simp⟩
  | r :: rs =>
    rw [looksOf, toPatterns]
    rcases toPattern_cases r with ⟨hlooks, p, hp, hlowers⟩ | ⟨l, hl, he⟩
    · rw [hlooks, hp]
      rcases toPatterns_cases rs with ⟨hlooks', pairs, rfl, hps, hlowers'⟩ | ⟨l, hl, he⟩
      · exact .inl ⟨hlooks', (r, p) :: pairs, rfl, by simp only [hps]; rfl,
          List.forall_mem_cons.2 ⟨hlowers, hlowers'⟩⟩
      · exact .inr ⟨l, hl, by simp only [he]; rfl⟩
    · exact .inr ⟨l, by rw [List.head?_append, hl]; rfl, by rw [he]⟩

end

end Regex

theorem standsFor_of_cased {has : Char → Prop} {d : Char} : StandsFor false has d ↔ has d := by
  simp [StandsFor]

theorem forall₂_congr_of_mem {α β : Type} {R S : α → β → Prop} {as : List α} {bs : List β}
    (h : ∀ a ∈ as, ∀ b, R a b ↔ S a b) : List.Forall₂ R as bs ↔ List.Forall₂ S as bs := by
  induction as generalizing bs with
  | nil => simp only [List.forall₂_nil_left_iff]
  | cons a as ih =>
    obtain ⟨ha, has⟩ := List.forall_mem_cons.1 h
    simp only [List.forall₂_cons_left_iff, ha, ih has]

theorem exists_parts_iff {α : Type} {R : α → List Char → Prop} {items : List α} {w : List Char} :
    (∃ parts : List (α × List Char), parts.map (·.1) = items ∧ (∀ p ∈ parts, R p.1 p.2) ∧
      parts.flatMap (·.2) = w) ↔ ∃ ws, List.Forall₂ R items ws ∧ ws.flatten = w := by
  constructor
  · rintro ⟨parts, rfl, h, rfl⟩
    refine ⟨parts.map (·.2), ?_, rfl⟩
    rw [List.forall₂_map_left_iff, List.forall₂_map_right_iff, List.forall₂_same]
    exact h
  · rintro ⟨ws, h, rfl⟩
    obtain ⟨hlength, hzip⟩ := List.forall₂_iff_zip.1 h
    refine ⟨items.zip ws, List.map_fst_zip hlength.le, fun p hp => hzip hp, ?_⟩
    rw [List.flatMap_def, List.map_snd_zip hlength.ge]

namespace Pattern

variable {refs : String → Option Pattern} {ignoreCase : Bool} {w : List Char}

theorem matches_literal_iff {text : List Char} :
    Matches refs false (.literal (String.ofList text)) w ↔ w = text := by
  have hsame : List.Forall₂ (fun c d => StandsFor false (· = c) d) text w ↔ w = text := by
    simp only [standsFor_of_cased, eq_comm (b := (_ : Char)), List.forall₂_eq_eq_eq]
    exact eq_comm
  rw [← hsame]
  constructor
  · intro h
    cases h with
    | literal h => rwa [String.toList_ofList] at h
  · intro h
    refine .literal ?_
    rwa [String.toList_ofList]

theorem matches_charClass_iff {cls : CharClass} :
    Matches refs false (.charClass cls) w ↔ ∃ d, w = [d] ∧ cls.Has d := by
  constructor
  · intro h
    cases h with
    | charClass h => exact ⟨_, rfl, standsFor_of_cased.1 h⟩
  · rintro ⟨d, rfl, h⟩
    exact .charClass (standsFor_of_cased.2 h)

theorem matches_seq_iff {items : List Pattern} : Matches refs ignoreCase (.seq items) w ↔
    ∃ ws, List.Forall₂ (Matches refs ignoreCase) items ws ∧ ws.flatten = w := by
  rw [← exists_parts_iff]
  constructor
  · intro h
    cases h with
    | seq h => exact ⟨_, rfl, h, rfl⟩
  · rintro ⟨parts, rfl, h, rfl⟩
    exact .seq h

theorem matches_alt_iff {items : List Pattern} : Matches refs ignoreCase (.alt items) w ↔
    ∃ p ∈ items, Matches refs ignoreCase p w := by
  constructor
  · intro h
    cases h with
    | alt hp h => exact ⟨_, hp, h⟩
  · rintro ⟨p, hp, h⟩
    exact .alt hp h

theorem matches_repetition_iff {body : Pattern} {min : Nat} {max : Option Nat} :
    Matches refs ignoreCase (body.repetition min max) w ↔
      ∃ ws : List (List Char), min ≤ ws.length ∧ (∀ m ∈ max, ws.length ≤ m) ∧
        (∀ v ∈ ws, Matches refs ignoreCase body v) ∧ ws.flatten = w := by
  unfold repetition
  constructor
  · intro h
    split at h
    · cases h with
      | star h => exact ⟨_, Nat.zero_le _, by simp, h, rfl⟩
    · cases h with
      | plus hmin h => exact ⟨_, hmin, by simp, h, rfl⟩
    · cases h with
      | opt hmax h => exact ⟨_, Nat.zero_le _, by simpa using hmax, h, rfl⟩
    · cases h with
      | rep hmin hmax h => exact ⟨_, hmin, hmax, h, rfl⟩
  · rintro ⟨ws, hmin, hmax, h, rfl⟩
    split
    · exact .star h
    · exact .plus hmin h
    · exact .opt (hmax 1 rfl) h
    · exact .rep hmin hmax h

end Pattern

namespace Regex

variable {r : Regex} {p : Pattern} {w : List Char}

theorem ClassKind.Admits.chars {kind : ClassKind} {r : Interval} (h : kind.Admits r) :
    (Char.ofNat r.lo).toNat = r.lo ∧ (Char.ofNat r.hi).toNat = r.hi ∧ r.lo ≤ r.hi := by
  cases kind with
  | unicode => exact ⟨toNat_charOfNat h.2.1, toNat_charOfNat h.2.2, h.1⟩
  | bytes =>
    obtain ⟨hle, hascii⟩ := h
    have hlo : r.lo.isValidChar := .inl (by omega)
    have hhi : r.hi.isValidChar := .inl (by omega)
    exact ⟨toNat_charOfNat hlo, toNat_charOfNat hhi, hle⟩

theorem has_ofInterval {kind : ClassKind} {r : Interval} (h : kind.Admits r) {d : Char} :
    (ClassItem.ofInterval kind r).Has d ↔ r.lo ≤ d.toNat ∧ d.toNat ≤ r.hi := by
  obtain ⟨hlo, hhi, -⟩ := h.chars
  rw [ClassItem.has_iff, ClassItem.ofInterval]
  split
  · next hsingle =>
    simp only [ClassItem.HasCode, hlo]
    omega
  · simp only [ClassItem.HasCode, hlo, hhi]

theorem matches_concat_iff {items : List Regex} : Matches (.concat items) w ↔
    ∃ ws, List.Forall₂ Matches items ws ∧ ws.flatten = w := by
  rw [← exists_parts_iff]
  constructor
  · intro h
    cases h with
    | concat h => exact ⟨_, rfl, h, rfl⟩
  · rintro ⟨parts, rfl, h, rfl⟩
    exact .concat h

theorem Lowers.matches_iff (h : r.Lowers p) (hr : r.WellFormed) (refs : String → Option Pattern) :
    ∀ w, Pattern.Matches refs false p w ↔ r.Matches w := by
  induction h with
  | empty =>
    intro w
    rw [Pattern.matches_seq_iff]
    simp only [List.forall₂_nil_left_iff, exists_eq_left, List.flatten_nil]
    constructor
    · rintro rfl
      exact .empty
    · intro h
      cases h
      rfl
  | literal text =>
    intro w
    rw [Pattern.matches_literal_iff]
    constructor
    · rintro rfl
      exact .literal w
    · intro h
      cases h
      rfl
  | charClass kind ranges =>
    intro w
    cases hr with
    | charClass hranges =>
      rw [Pattern.matches_charClass_iff]
      simp only [CharClass.Has, Bool.false_eq_true, if_false, List.mem_map,
        exists_exists_and_eq_and]
      constructor
      · rintro ⟨d, rfl, r, hr, hd⟩
        obtain ⟨hlo, hhi⟩ := (has_ofInterval (hranges r hr)).1 hd
        exact .charClass hr hlo hhi
      · intro h
        cases h with
        | charClass hr hlo hhi =>
          exact ⟨_, rfl, _, hr, (has_ofInterval (hranges _ hr)).2 ⟨hlo, hhi⟩⟩
  | repetition h ih =>
    intro w
    cases hr with
    | repetition hmax hbody =>
      rw [Pattern.matches_repetition_iff]
      simp only [ih hbody]
      constructor
      · rintro ⟨ws, hmin, hmax, hws, rfl⟩
        exact .repetition hmin hmax hws
      · intro h
        cases h with
        | repetition hmin hmax hws => exact ⟨_, hmin, hmax, hws, rfl⟩
  | capture h ih =>
    intro w
    cases hr with
    | capture hbody =>
      rw [ih hbody]
      constructor
      · exact .capture
      · intro h
        cases h with
        | capture h => exact h
  | concat h ih =>
    intro w
    cases hr with
    | concat hitems =>
      rw [Pattern.matches_seq_iff, matches_concat_iff]
      simp only [List.forall₂_map_left_iff]
      refine exists_congr fun ws => and_congr_left fun _ => forall₂_congr_of_mem fun q hq => ?_
      exact ih q hq (hitems q.1 (List.mem_map_of_mem hq))
  | alternation h ih =>
    intro w
    cases hr with
    | alternation hitems =>
      rw [Pattern.matches_alt_iff]
      constructor
      · rintro ⟨p, hp, hmatches⟩
        obtain ⟨q, hq, rfl⟩ := List.mem_map.1 hp
        have hitem := List.mem_map_of_mem (f := (·.1)) hq
        exact .alternation hitem ((ih q hq (hitems _ hitem) w).1 hmatches)
      · intro h
        cases h with
        | alternation hitem hmatches =>
          obtain ⟨q, hq, rfl⟩ := List.mem_map.1 hitem
          exact ⟨q.2, List.mem_map_of_mem hq, (ih q hq (hitems _ hitem) w).2 hmatches⟩

end Regex

def PatternError.OfExtent (e : PatternError) : Prop :=
  e = .emptyClass ∨ ∃ bound, e = .repeatTooLarge bound

namespace Pattern

theorem references_repetition (body : Pattern) (min : Nat) (max : Option Nat) :
    (body.repetition min max).references = body.references := by
  unfold repetition
  split <;> rfl

theorem exists_of_firstFault? {ps : List Pattern} {e : PatternError}
    (h : firstFault? ps = some e) : ∃ p ∈ ps, p.fault? = some e := by
  induction ps with
  | nil => cases h
  | cons p ps ih =>
    rw [firstFault?] at h
    split at h
    · next hp => exact ⟨p, List.mem_cons_self, hp.trans h⟩
    · obtain ⟨q, hq, he⟩ := ih h
      exact ⟨q, List.mem_cons_of_mem _ hq, he⟩

theorem fault?_repetition {body : Pattern} {min : Nat} {max : Option Nat} {e : PatternError}
    (h : (body.repetition min max).fault? = some e) :
    boundsFault? min max = some e ∨ body.fault? = some e := by
  unfold repetition at h
  split at h
  · exact .inr h
  · exact .inr h
  · exact .inr h
  · rw [fault?] at h
    split at h
    · next hbounds => exact .inl (hbounds.trans h)
    · exact .inr h

theorem ofExtent_of_classFault? {cls : CharClass} (h : ∀ lo hi, .range lo hi ∈ cls.items → lo ≤ hi)
    {e : PatternError} (he : classFault? cls = some e) : e.OfExtent := by
  simp only [classFault?, invertedRange?_eq_none_iff.2 h] at he
  split at he
  · exact .inl (Option.some.inj he).symm
  · cases he

theorem ofExtent_of_boundsFault? {min : Nat} {max : Option Nat} (h : ∀ m ∈ max, min ≤ m)
    {e : PatternError} (he : boundsFault? min max = some e) : e.OfExtent := by
  simp only [boundsFault?] at he
  split at he
  · exact .inr ⟨_, (Option.some.inj he).symm⟩
  · cases max with
    | none => cases he
    | some m =>
      simp only [if_neg (Nat.not_lt.2 (h m rfl))] at he
      cases he

end Pattern

namespace Regex

variable {r : Regex} {p : Pattern}

theorem Lowers.references_eq_nil (h : r.Lowers p) : p.references = [] := by
  induction h with
  | empty | literal text | charClass kind ranges => rfl
  | repetition h ih => rw [Pattern.references_repetition, ih]
  | capture h ih => exact ih
  | concat h ih | alternation h ih =>
    rw [Pattern.references, Pattern.referencesOf_eq, List.flatMap_eq_nil_iff]
    exact List.forall_mem_map.2 ih

theorem le_of_range_mem {kind : ClassKind} {ranges : List Interval}
    (h : ∀ r ∈ ranges, kind.Admits r) (lo hi : Char)
    (hmem : .range lo hi ∈ ranges.map (ClassItem.ofInterval kind)) : lo ≤ hi := by
  obtain ⟨r, hr, heq⟩ := List.mem_map.1 hmem
  obtain ⟨hlo, hhi, hle⟩ := (h r hr).chars
  rw [ClassItem.ofInterval] at heq
  split at heq
  · cases heq
  · obtain ⟨rfl, rfl⟩ := ClassItem.range.inj heq
    show (Char.ofNat r.lo).toNat ≤ (Char.ofNat r.hi).toNat
    rwa [hlo, hhi]

theorem Lowers.ofExtent (h : r.Lowers p) (hr : r.WellFormed) {e : PatternError}
    (he : p.fault? = some e) : e.OfExtent := by
  induction h with
  | empty | literal text => cases he
  | charClass kind ranges =>
    cases hr with
    | charClass hranges => exact Pattern.ofExtent_of_classFault? (le_of_range_mem hranges) he
  | repetition h ih =>
    cases hr with
    | repetition hmax hbody =>
      rcases Pattern.fault?_repetition he with he | he
      · exact Pattern.ofExtent_of_boundsFault? hmax he
      · exact ih hbody he
  | capture h ih =>
    cases hr with
    | capture hbody => exact ih hbody he
  | concat h ih =>
    cases hr with
    | concat hitems =>
      obtain ⟨_, hp, he⟩ := Pattern.exists_of_firstFault? he
      obtain ⟨q, hq, rfl⟩ := List.mem_map.1 hp
      exact ih q hq (hitems q.1 (List.mem_map_of_mem hq)) he
  | alternation h ih =>
    cases hr with
    | alternation hitems =>
      obtain ⟨_, hp, he⟩ := Pattern.exists_of_firstFault? he
      obtain ⟨q, hq, rfl⟩ := List.mem_map.1 hp
      exact ih q hq (hitems q.1 (List.mem_map_of_mem hq)) he

/-- An expression with assertions is refused by the name of the first of them, and by nothing else.
One without has a pattern that matches the same texts, whatever references stand for, has no
references, and has no faults but those of empty classes and large repetitions. -/
theorem toPattern_exact (h : r.WellFormed) :
    ((∃ name, r.toPattern = .error (.unsupported name)) ↔ r.looks ≠ []) ∧
    (∀ e, r.toPattern = .error e ↔ ∃ l, r.looks.head? = some l ∧ e = .unsupported l.name) ∧
    (r.looks = [] → ∃ p, r.toPattern = .ok p ∧
      (∀ refs w, Pattern.Matches refs false p w ↔ r.Matches w) ∧ p.references = [] ∧
      ∀ e, p.fault? = some e → e = .emptyClass ∨ ∃ bound, e = .repeatTooLarge bound) := by
  rcases toPattern_cases r with ⟨hlooks, p, hp, hlowers⟩ | ⟨l, hl, he⟩
  · simp only [hlooks, hp, reduceCtorEq, exists_false, List.head?_nil, false_and, ne_eq, not_true]
    refine ⟨trivial, fun e => trivial, fun _ => ⟨p, rfl, ?_, hlowers.references_eq_nil, ?_⟩⟩
    · exact fun refs w => hlowers.matches_iff h refs w
    · exact fun e he => hlowers.ofExtent h he
  · have hne : r.looks ≠ [] := by
      intro hnil
      rw [hnil] at hl
      cases hl
    refine ⟨⟨fun _ => hne, fun _ => ⟨l.name, he⟩⟩, fun e => ?_, fun hnil => absurd hnil hne⟩
    rw [he, hl]
    simp [eq_comm]

def signedWord : Regex :=
  .concat [.alternation [.charClass .bytes [⟨43, 43⟩, ⟨45, 45⟩], .empty],
    .repetition 2 (some 3) true (.capture 1 (.charClass .unicode [⟨97, 99⟩, ⟨945, 945⟩]))]

theorem wellFormed_signedWord : signedWord.WellFormed := by
  have hsigns : ∀ r ∈ [(⟨43, 43⟩ : Interval), ⟨45, 45⟩], ClassKind.bytes.Admits r := by
    simp [ClassKind.Admits]
  have hletters : ∀ r ∈ [(⟨97, 99⟩ : Interval), ⟨945, 945⟩], ClassKind.unicode.Admits r := by
    simp [ClassKind.Admits, Nat.isValidChar]
  have hsign : WellFormed (.alternation [.charClass .bytes [⟨43, 43⟩, ⟨45, 45⟩], .empty]) :=
    .alternation (by simpa using ⟨.charClass hsigns, .empty⟩)
  exact .concat (by simpa using ⟨hsign, .repetition (by simp) (.capture (.charClass hletters))⟩)

theorem matches_signedWord : signedWord.Matches ['-', 'a', 'α'] := by
  have hsign : Matches (.charClass .bytes [⟨43, 43⟩, ⟨45, 45⟩]) ['-'] :=
    .charClass (List.mem_cons_of_mem _ List.mem_cons_self) (by decide) (by decide)
  have hletters : ∀ w ∈ [['a'], ['α']],
      Matches (.capture 1 (.charClass .unicode [⟨97, 99⟩, ⟨945, 945⟩])) w := by
    simp only [List.forall_mem_cons, List.not_mem_nil, false_implies, implies_true, and_true]
    exact ⟨.capture (.charClass List.mem_cons_self (by decide) (by decide)),
      .capture (.charClass (List.mem_cons_of_mem _ List.mem_cons_self) (by decide) (by decide))⟩
  have hword : Matches (.repetition 2 (some 3) true
      (.capture 1 (.charClass .unicode [⟨97, 99⟩, ⟨945, 945⟩]))) [['a'], ['α']].flatten :=
    .repetition (by decide) (by simp) hletters
  exact matches_concat_iff.2 ⟨[['-'], ['a', 'α']],
    .cons (.alternation List.mem_cons_self hsign) (.cons hword .nil), rfl⟩

theorem toPattern_exact_signedWord :
    signedWord.WellFormed ∧ signedWord.looks = [] ∧ ∃ p, signedWord.toPattern = .ok p ∧
      p.references = [] ∧ Pattern.Matches (fun _ => none) false p ['-', 'a', 'α'] := by
  have hlooks : signedWord.looks = [] := by
    simp [signedWord, looks, looksOf]
  obtain ⟨-, -, hpattern⟩ := toPattern_exact wellFormed_signedWord
  obtain ⟨p, hp, hmatches, hreferences, -⟩ := hpattern hlooks
  exact ⟨wellFormed_signedWord, hlooks, p, hp, hreferences, (hmatches _ _).2 matches_signedWord⟩

end Regex

end PredictiveParsing
