import PredictiveParsing.Automaton.Fragment
import PredictiveParsing.Proofs.CaseMappings
import PredictiveParsing.Proofs.PatternLanguage

/-!
# Labels stand for code points

The set that a character or a class is read by has the code points that stand for it, and nothing
beyond the alphabet. As no code point above the cased limit has case forms, folding a set adds all
case variants of its members.
-/
namespace PredictiveParsing

theorem toNat_le_maxCodePoint (c : Char) : c.toNat ≤ CharSet.maxCodePoint := by
  have hvalid : c.val.toNat < 0xD800 ∨ 0xDFFF < c.val.toNat ∧ c.val.toNat < 0x110000 := c.valid
  have hmax : CharSet.maxCodePoint = 0x10FFFF := rfl
  rw [← Char.toNat_val]
  omega

theorem le_maxCodePoint_of_mem_caseVariants {a b : Nat} (h : (a, b) ∈ caseVariants) :
    b ≤ CharSet.maxCodePoint := by
  obtain ⟨x, y, -, rfl, -⟩ := (tabulates_caseVariants a b).1 h
  exact toNat_le_maxCodePoint y

theorem exists_char_of_mem_caseVariants {a b : Nat} (h : (a, b) ∈ caseVariants) :
    ∃ c : Char, c.toNat = a := by
  obtain ⟨x, y, hx, -⟩ := (tabulates_caseVariants a b).1 h
  exact ⟨x, hx⟩

namespace CharSet

theorem contains_caseFold_iff {s : CharSet} {c : Nat} :
    (s.caseFold lowerCase upperCase).contains c = true ↔
      s.contains c = true ∨ ∃ a, s.contains a = true ∧ (a, c) ∈ caseVariants := by
  rw [contains_caseFold]
  constructor
  · rintro (hc | ⟨x, y, hx, -, himage, rfl⟩)
    · exact .inl hc
    · by_cases hxy : y = x
      · exact .inl (hxy ▸ hx)
      · exact .inr ⟨x.toNat, hx, (tabulates_caseVariants _ _).2 ⟨x, y, rfl, rfl, hxy, himage⟩⟩
  · rintro (hc | ⟨a, ha, hpair⟩)
    · exact .inl hc
    · obtain ⟨x, y, rfl, rfl, -, himage⟩ := (tabulates_caseVariants _ _).1 hpair
      exact .inr ⟨x, y, ha, le_casedLimit_of_mem_caseVariants hpair, himage, rfl⟩

end CharSet

theorem ClassItem.interval_iff {i : ClassItem} {c : Nat} :
    (i.interval.lo ≤ c ∧ c ≤ i.interval.hi) ↔ i.HasCode c := by
  cases i with
  | char a =>
    simp only [interval, HasCode]
    omega
  | range lo hi => exact Iff.rfl

theorem ClassItem.interval_hi (i : ClassItem) : i.interval.hi ≤ CharSet.maxCodePoint := by
  cases i with
  | char c => exact toNat_le_maxCodePoint c
  | range lo hi => exact toNat_le_maxCodePoint hi

namespace CharSet

theorem inAlphabet_single (c : Char) : InAlphabet (single c.toNat) := by
  intro x hx
  rw [contains_single.1 hx]
  exact toNat_le_maxCodePoint c

theorem inAlphabet_class (cls : CharClass) : InAlphabet cls.charSet := by
  have hitems : InAlphabet (ofRanges (cls.items.map ClassItem.interval)) := by
    intro c hc
    obtain ⟨r, hr, -, hhi⟩ := contains_ofRanges.1 hc
    obtain ⟨i, -, rfl⟩ := List.mem_map.1 hr
    exact Nat.le_trans hhi i.interval_hi
  rw [CharClass.charSet]
  split
  · exact hitems.negate
  · exact hitems

theorem InAlphabet.caseFold {s : CharSet} (h : InAlphabet s) :
    InAlphabet (s.caseFold lowerCase upperCase) := by
  intro c hc
  rcases contains_caseFold_iff.1 hc with hc | ⟨a, -, hpair⟩
  · exact h c hc
  · exact le_maxCodePoint_of_mem_caseVariants hpair

end CharSet

theorem CharClass.contains_charSet {cls : CharClass} {c : Nat} :
    cls.charSet.contains c = true ↔ cls.HasCode c := by
  have hitems : (CharSet.ofRanges (cls.items.map ClassItem.interval)).contains c = true ↔
      ∃ i ∈ cls.items, i.HasCode c := by
    simp only [CharSet.contains_ofRanges, List.mem_map, exists_exists_and_eq_and,
      ClassItem.interval_iff]
  by_cases hc : c ≤ CharSet.maxCodePoint
  · rw [charSet, HasCode, and_iff_right hc]
    split
    · rw [CharSet.contains_negate hc, hitems]
    · exact hitems
  · exact ⟨fun h => absurd (CharSet.inAlphabet_class cls c h) hc, fun h => absurd h.1 hc⟩

namespace Nfa

variable {ignoreCase : Bool} {c : Nat}

theorem inAlphabet_letterSet (ignoreCase : Bool) (c : Char) :
    (letterSet ignoreCase c).InAlphabet := by
  rw [letterSet]
  split
  · exact (CharSet.inAlphabet_single c).caseFold
  · exact CharSet.inAlphabet_single c

theorem inAlphabet_classSet (ignoreCase : Bool) (cls : CharClass) :
    (classSet ignoreCase cls).InAlphabet := by
  rw [classSet]
  split
  · exact (CharSet.inAlphabet_class cls).caseFold
  · exact CharSet.inAlphabet_class cls

theorem contains_letterSet {a : Char} :
    (letterSet ignoreCase a).contains c = true ↔ StandsForCode ignoreCase (· = a.toNat) c := by
  cases ignoreCase with
  | false => simp [letterSet, StandsForCode, CharSet.contains_single]
  | true =>
    simp [letterSet, StandsForCode, CharSet.contains_caseFold_iff, CharSet.contains_single]

theorem contains_classSet {cls : CharClass} :
    (classSet ignoreCase cls).contains c = true ↔ StandsForCode ignoreCase cls.HasCode c := by
  cases ignoreCase with
  | false => simp [classSet, StandsForCode, CharClass.contains_charSet]
  | true =>
    simp [classSet, StandsForCode, CharSet.contains_caseFold_iff, CharClass.contains_charSet]

end Nfa
end PredictiveParsing
