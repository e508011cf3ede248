import Mathlib.Data.Set.Lattice
import Mathlib.Order.Interval.Set.Defs
import PredictiveParsing.Ascending
import PredictiveParsing.Proofs.CharSets
import PredictiveParsing.Text.Case

/-!
# Canonical sets of code points

The intervals of a separated list are the maximal runs of its members, so a set of code points has
one such list. What each operation on sets does is told by the members; that of adding case forms is
told for any two mappings of characters to texts. Main statement: `canonical`.
-/
namespace PredictiveParsing

def Interval.members (r : Interval) : Set Nat := Set.Icc r.lo r.hi

theorem Interval.mem_members {r : Interval} {c : Nat} : c ∈ r.members ↔ r.lo ≤ c ∧ c ≤ r.hi :=
  Iff.rfl

namespace CharSet

def members (s : CharSet) : Set Nat := ⋃ r ∈ s.ranges, r.members

theorem mem_members {s : CharSet} {c : Nat} :
    c ∈ s.members ↔ ∃ r ∈ s.ranges, r.lo ≤ c ∧ c ≤ r.hi := by
  simp only [members, Set.mem_iUnion, exists_prop, Interval.mem_members]

theorem contains_iff_mem {s : CharSet} {c : Nat} : s.contains c = true ↔ c ∈ s.members := by
  rw [contains_iff, mem_members]

theorem inAlphabet_iff {s : CharSet} : InAlphabet s ↔ s.members ⊆ Set.Iic maxCodePoint := by
  simp only [InAlphabet, contains_iff_mem]
  rfl

structure MaximalRun (members : Set Nat) (r : Interval) : Prop where
  nonempty : r.lo ≤ r.hi
  subset : r.members ⊆ members
  below : ∀ c ∈ members, c + 1 ≠ r.lo
  above : r.hi + 1 ∉ members

theorem Separated.eq_or_apart {rs : List Interval} (h : Separated rs) {x y : Interval}
    (hx : x ∈ rs) (hy : y ∈ rs) : x = y ∨ x.hi + 1 < y.lo ∨ y.hi + 1 < x.lo := by
  induction rs with
  | nil => exact absurd hx List.not_mem_nil
  | cons z zs ih =>
    obtain ⟨hz, -⟩ := List.pairwise_cons.1 h.apart
    rcases List.mem_cons.1 hx with rfl | hxs <;> rcases List.mem_cons.1 hy with rfl | hys
    · exact .inl rfl
    · exact .inr (.inl (hz y hys))
    · exact .inr (.inr (hz x hxs))
    · exact ih h.of_cons hxs hys

theorem maximalRun_of_mem {s : CharSet} {r : Interval} (hr : r ∈ s.ranges) :
    MaximalRun s.members r := by
  have h := s.separated
  have hnonempty := h.nonempty r hr
  refine ⟨hnonempty, fun c hc => mem_members.2 ⟨r, hr, hc⟩, ?_, ?_⟩
  · intro c hc heq
    obtain ⟨x, hx, hxc⟩ := mem_members.1 hc
    rcases h.eq_or_apart hx hr with rfl | hlt | hlt <;> omega
  · intro hc
    obtain ⟨x, hx, hxc⟩ := mem_members.1 hc
    rcases h.eq_or_apart hx hr with rfl | hlt | hlt <;> omega

theorem MaximalRun.eq_of_meets {members : Set Nat} {r x : Interval} (hr : MaximalRun members r)
    (hx : MaximalRun members x) (hlo : x.lo ≤ r.lo) (hhi : r.lo ≤ x.hi) : r = x := by
  have hstart : r.lo = x.lo := by
    by_contra hne
    have hbefore : r.lo - 1 ∈ members := hx.subset ⟨by omega, by omega⟩
    exact hr.below _ hbefore (by omega)
  have hend : r.hi = x.hi := by
    rcases Nat.lt_trichotomy r.hi x.hi with hlt | heq | hlt
    · exact absurd (hx.subset ⟨by have := hr.nonempty; omega, hlt⟩) hr.above
    · exact heq
    · exact absurd (hr.subset ⟨by omega, hlt⟩) hx.above
  cases r
  cases x
  simp only [Interval.mk.injEq]
  exact ⟨hstart, hend⟩

theorem mem_ranges_iff {s : CharSet} {r : Interval} :
    r ∈ s.ranges ↔ MaximalRun s.members r := by
  refine ⟨maximalRun_of_mem, fun hr => ?_⟩
  obtain ⟨x, hx, hlo, hhi⟩ := mem_members.1 (hr.subset ⟨Nat.le_refl _, hr.nonempty⟩)
  rwa [hr.eq_of_meets (maximalRun_of_mem hx) hlo hhi]

theorem ext_members {s t : CharSet} (h : s.members = t.members) : s = t := by
  have hordered {rs : List Interval} (hrs : Separated rs) :
      rs.Pairwise fun a b => a.lo ≤ a.hi ∧ a.hi + 1 < b.lo :=
    hrs.apart.imp_of_mem fun ha _ hlt => ⟨hrs.nonempty _ ha, hlt⟩
  have hranges : s.ranges = t.ranges := by
    refine Ascending.eq_of_mem_iff (fun a ha => by omega) (fun hab hbc => by omega)
      (hordered s.separated) (hordered t.separated) fun r => ?_
    rw [mem_ranges_iff, mem_ranges_iff, h]
  cases s
  cases t
  simpa using hranges

theorem members_ofRanges (rs : List Interval) :
    (ofRanges rs).members = ⋃ r ∈ rs, r.members := by
  ext c
  rw [← contains_iff_mem, contains_ofRanges]
  simp only [Set.mem_iUnion, exists_prop, Interval.mem_members]

theorem members_negate {s : CharSet} (hs : s.members ⊆ Set.Iic maxCodePoint) :
    s.negate.members = Set.Iic maxCodePoint \ s.members := by
  have hnegate := (inAlphabet_iff.2 hs).negate
  ext c
  constructor
  · intro hc
    have hle := inAlphabet_iff.1 hnegate hc
    rw [← contains_iff_mem, contains_negate hle, contains_iff_mem] at hc
    exact ⟨hle, hc⟩
  · rintro ⟨hle, hc⟩
    rwa [← contains_iff_mem, contains_negate hle, contains_iff_mem]

theorem negate_negate {s : CharSet} (hs : s.members ⊆ Set.Iic maxCodePoint) :
    s.negate.negate = s := by
  have hnegate := members_negate hs
  have hwithin : s.negate.members ⊆ Set.Iic maxCodePoint := hnegate ▸ Set.sdiff_subset
  refine ext_members ?_
  rw [members_negate hwithin, hnegate, Set.sdiff_sdiff_cancel_left hs]

theorem members_caseFold (lower upper : Char → List Char) (s : CharSet) :
    (s.caseFold lower upper).members = s.members ∪ {c | ∃ x y : Char, x.toNat ∈ s.members ∧
      x.toNat ≤ casedLimit ∧ (lower x = [y] ∨ upper x = [y]) ∧ y.toNat = c} := by
  ext c
  rw [← contains_iff_mem, contains_caseFold]
  simp only [contains_iff_mem, Set.mem_union, Set.mem_ofPred_eq]

/-- The intervals of a set increase and do not touch, so a set is told by its members. The search by
halving finds the members, a union, a complement within the alphabet and a set with its case forms
have the members they should have, and taking the complement twice gives the set back. -/
theorem canonical (s : CharSet) :
    Separated s.ranges ∧
    (∀ t : CharSet, s = t ↔ s.members = t.members) ∧
    (∀ c, s.contains c = true ↔ c ∈ s.members) ∧
    (∀ c r, s.find? c = some r ↔ r ∈ s.ranges ∧ c ∈ Set.Icc r.lo r.hi) ∧
    (∀ rs, (ofRanges rs).members = ⋃ r ∈ rs, Set.Icc r.lo r.hi) ∧
    (s.members ⊆ Set.Iic maxCodePoint →
      s.negate.members = Set.Iic maxCodePoint \ s.members ∧ s.negate.negate = s) ∧
    ∀ lower upper : Char → List Char,
      (s.caseFold lower upper).members = s.members ∪ {c | ∃ x y : Char, x.toNat ∈ s.members ∧
        x.toNat ≤ casedLimit ∧ (lower x = [y] ∨ upper x = [y]) ∧ y.toNat = c} :=
  ⟨s.separated, fun _ => ⟨fun heq => heq ▸ rfl, ext_members⟩, fun _ => contains_iff_mem,
    fun _ _ => find?_eq_some_iff, members_ofRanges,
    fun hin => ⟨members_negate hin, negate_negate hin⟩,
    fun lower upper => members_caseFold lower upper s⟩

theorem canonical_kelvinSign :
    (single 0x212A).negate.negate = single 0x212A ∧
      0x6B ∈ ((single 0x212A).caseFold lowerCase upperCase).members := by
  obtain ⟨-, -, hcontains, -, -, hnegate, hfold⟩ := canonical (single 0x212A)
  have hwithin : (single 0x212A).members ⊆ Set.Iic maxCodePoint := by
    intro c hc
    rw [← hcontains, contains_single] at hc
    exact hc ▸ by decide
  have hmember : 0x212A ∈ (single 0x212A).members := (hcontains _).1 (contains_single.2 rfl)
  refine ⟨(hnegate hwithin).2, ?_⟩
  rw [hfold]
  exact .inr ⟨Char.ofNat 0x212A, 'k', hmember, by decide, .inl (by decide +kernel), rfl⟩

end CharSet
end PredictiveParsing
