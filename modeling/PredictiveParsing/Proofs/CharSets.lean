import Mathlib.Data.List.Basic
import PredictiveParsing.CharSet.Basic

/-!
# Membership in sets of code points

A code point is in a set if one of the intervals has it, which the search by halving finds out. Each
way of building a set is described by its members.
-/
namespace PredictiveParsing

theorem toNat_charOfNat {a : Nat} (h : a.isValidChar) : (Char.ofNat a).toNat = a := by
  rw [Char.ofNat, dif_pos h]
  rfl

namespace CharSet

theorem find?_eq_some_iff {s : CharSet} {c : Nat} {r : Interval} :
    s.find? c = some r ↔ r ∈ s.ranges ∧ r.lo ≤ c ∧ c ≤ r.hi := by
  rw [find?, Option.filter_eq_some_iff, Interval.contains_iff]
  refine and_congr_left fun hc => ⟨List.mem_of_getElem?, fun hr => ?_⟩
  -- the intervals before `r` begin no later than `c`, and those after it begin later
  obtain ⟨before, above, heq⟩ := List.append_of_mem hr
  have hsplit : s.ranges = (before ++ [r]) ++ above := by rw [heq, List.append_cons]
  have hbefore : ∀ x ∈ before ++ [r], decide (x.lo ≤ c) = true := by
    intro x hx
    rw [decide_eq_true_eq]
    rcases List.mem_append.1 hx with hx | hx
    · have hnonempty := s.separated.nonempty x (heq ▸ List.mem_append_left _ hx)
      have hlt := (heq ▸ s.separated).of_append x hx r List.mem_cons_self
      omega
    · exact List.mem_singleton.1 hx ▸ hc.1
  have habove : ∀ x ∈ above, decide (x.lo ≤ c) = false := by
    intro x hx
    have hlt := (hsplit ▸ s.separated).of_append r (List.mem_append_right _ List.mem_cons_self) x hx
    rw [decide_eq_false_iff_not]
    omega
  rw [hsplit, bisect_append hbefore habove]
  simp

theorem contains_iff {s : CharSet} {c : Nat} :
    s.contains c = true ↔ ∃ r ∈ s.ranges, r.lo ≤ c ∧ c ≤ r.hi := by
  rw [contains, Option.isSome_iff_exists]
  exact exists_congr fun r => find?_eq_some_iff

theorem contains_single {a c : Nat} : (single a).contains c = true ↔ c = a := by
  simp only [contains_iff, single, List.mem_singleton, exists_eq_left]
  omega

theorem contains_ofRanges {rs : List Interval} {c : Nat} :
    (ofRanges rs).contains c = true ↔ ∃ r ∈ rs, r.lo ≤ c ∧ c ≤ r.hi := by
  rw [contains_iff]
  exact mem_merged

theorem mem_gaps {next : Nat} {rs : List Interval} (h : Separated rs)
    (hnext : ∀ r ∈ rs, next ≤ r.lo)
    {c : Nat} (hc : c ≤ maxCodePoint) :
    (∃ g ∈ gaps next rs, g.lo ≤ c ∧ c ≤ g.hi) ↔
      next ≤ c ∧ ¬ ∃ r ∈ rs, r.lo ≤ c ∧ c ≤ r.hi := by
  induction rs generalizing next with
  | nil =>
    rw [gaps]
    split
    · simp [hc]
    · simp only [List.not_mem_nil, false_and, exists_false, false_iff, not_false_eq_true, and_true]
      omega
  | cons r rs ih =>
    have hr := h.nonempty r List.mem_cons_self
    have hlo := hnext r List.mem_cons_self
    obtain ⟨hapart, -⟩ := List.pairwise_cons.1 h.apart
    have hrest : ∀ x ∈ rs, r.hi + 1 ≤ x.lo := fun x hx => Nat.le_of_lt (hapart x hx)
    have habove : (∃ x ∈ rs, x.lo ≤ c ∧ c ≤ x.hi) → r.hi + 1 ≤ c := by
      rintro ⟨x, hx, hle, _⟩
      exact Nat.le_trans (hrest x hx) hle
    rw [gaps]
    split
    · rw [List.exists_mem_cons_iff, ih h.of_cons hrest, List.exists_mem_cons_iff]
      by_cases hin : ∃ x ∈ rs, x.lo ≤ c ∧ c ≤ x.hi
      · have := habove hin
        simp only [hin, not_true, and_false, or_false, or_true, iff_false]
        omega
      · simp only [hin, not_false_eq_true, and_true, or_false]
        omega
    · rw [ih h.of_cons hrest, List.exists_mem_cons_iff]
      by_cases hin : ∃ x ∈ rs, x.lo ≤ c ∧ c ≤ x.hi
      · simp [hin]
      · simp only [hin, not_false_eq_true, and_true, or_false]
        omega

theorem contains_negate {s : CharSet} {c : Nat} (hc : c ≤ maxCodePoint) :
    s.negate.contains c = true ↔ ¬ s.contains c = true := by
  rw [contains_iff, contains_iff, negate, mem_gaps s.separated (by simp) hc]
  simp

def InAlphabet (s : CharSet) : Prop := ∀ c, s.contains c = true → c ≤ maxCodePoint

theorem hi_gaps {next : Nat} {rs : List Interval}
    (hrs : ∀ r ∈ rs, r.lo ≤ r.hi ∧ r.hi ≤ maxCodePoint) :
    ∀ g ∈ gaps next rs, g.hi ≤ maxCodePoint := by
  induction rs generalizing next with
  | nil =>
    intro g hg
    rw [gaps] at hg
    split at hg
    · obtain rfl := List.mem_singleton.1 hg
      exact Nat.le_refl _
    · cases hg
  | cons r rs ih =>
    obtain ⟨hr, hrs⟩ := List.forall_mem_cons.1 hrs
    rw [gaps]
    split
    · refine List.forall_mem_cons.2 ⟨?_, ih hrs⟩
      simp only
      omega
    · exact ih hrs

theorem InAlphabet.negate {s : CharSet} (h : InAlphabet s) : InAlphabet s.negate := by
  intro c hc
  obtain ⟨g, hg, -, hhi⟩ := contains_iff.1 hc
  refine Nat.le_trans hhi (hi_gaps (fun r hr => ?_) g hg)
  have hne := s.separated.nonempty r hr
  exact ⟨hne, h r.hi (contains_iff.2 ⟨r, hr, hne, Nat.le_refl _⟩)⟩

theorem mem_caseForms {lower upper : Char → List Char} {c d : Char} :
    d ∈ caseForms lower upper c ↔ (lower c = [d] ∨ upper c = [d]) ∧ d ≠ c := by
  have hone (image : List Char) : (image.length = 1 ∧ d ∈ image) ↔ image = [d] := by
    rw [List.length_eq_one_iff]
    constructor
    · rintro ⟨⟨e, rfl⟩, hd⟩
      rw [List.mem_singleton.1 hd]
    · rintro rfl
      exact ⟨⟨d, rfl⟩, List.mem_singleton_self d⟩
  rw [caseForms, List.mem_filter, decide_eq_true_eq]
  simp only [List.mem_flatten, List.mem_filter, List.mem_cons, List.not_mem_nil, or_false,
    decide_eq_true_eq, and_assoc, hone, exists_eq_or_imp, exists_eq_left]

theorem mem_casedChars {r : Interval} {c : Char} :
    c ∈ casedChars r ↔ r.lo ≤ c.toNat ∧ c.toNat ≤ r.hi ∧ c.toNat ≤ casedLimit := by
  simp only [casedChars, List.mem_map, List.mem_filter, List.mem_range'_1, decide_eq_true_eq]
  constructor
  · rintro ⟨a, ⟨ha, hvalid⟩, rfl⟩
    rw [toNat_charOfNat hvalid]
    omega
  · intro hc
    exact ⟨c.toNat, ⟨by omega, c.valid⟩, Char.ofNat_toNat c⟩

theorem mem_extra {lower upper : Char → List Char} {s : CharSet} {y : Char} :
    y ∈ (s.ranges.flatMap casedChars).flatMap (caseForms lower upper) ↔
      ∃ x : Char, s.contains x.toNat = true ∧ x.toNat ≤ casedLimit ∧
        (lower x = [y] ∨ upper x = [y]) ∧ y ≠ x := by
  simp only [List.mem_flatMap, mem_casedChars, mem_caseForms, contains_iff]
  refine exists_congr fun x => ?_
  constructor
  · rintro ⟨⟨r, hr, hlo, hhi, hle⟩, himage⟩
    exact ⟨⟨r, hr, hlo, hhi⟩, hle, himage⟩
  · rintro ⟨⟨r, hr, hlo, hhi⟩, hle, himage⟩
    exact ⟨⟨r, hr, hlo, hhi, hle⟩, himage⟩

theorem contains_caseFold {lower upper : Char → List Char} {s : CharSet} {c : Nat} :
    (s.caseFold lower upper).contains c = true ↔
      s.contains c = true ∨ ∃ x y : Char, s.contains x.toNat = true ∧ x.toNat ≤ casedLimit ∧
        (lower x = [y] ∨ upper x = [y]) ∧ y.toNat = c := by
  have hadded : (s.caseFold lower upper).contains c = true ↔ s.contains c = true ∨
      ∃ y ∈ (s.ranges.flatMap casedChars).flatMap (caseForms lower upper), y.toNat = c := by
    rw [caseFold]
    generalize (s.ranges.flatMap casedChars).flatMap (caseForms lower upper) = extra
    cases extra with
    | nil => simp
    | cons y ys =>
      have hpoint (d : Char) : (d.toNat ≤ c ∧ c ≤ d.toNat) ↔ d.toNat = c := by omega
      rw [List.isEmpty_cons, if_neg Bool.false_ne_true, contains_ofRanges, contains_iff]
      simp only [List.mem_append, List.mem_map, or_and_right, exists_or, exists_exists_and_eq_and,
        hpoint]
  rw [hadded]
  constructor
  · rintro (hc | ⟨y, hy, rfl⟩)
    · exact .inl hc
    · obtain ⟨x, hx, hle, himage, -⟩ := mem_extra.1 hy
      exact .inr ⟨x, y, hx, hle, himage, rfl⟩
  · rintro (hc | ⟨x, y, hx, hle, himage, rfl⟩)
    · exact .inl hc
    · by_cases hxy : y = x
      · exact .inl (hxy ▸ hx)
      · exact .inr ⟨y, mem_extra.2 ⟨x, hx, hle, himage, hxy⟩, rfl⟩

end CharSet
end PredictiveParsing
