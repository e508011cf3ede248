import PredictiveParsing.Proofs.Alphabet
import PredictiveParsing.Proofs.CanonicalSets

/-!
# The partition of the alphabet is exact

The elementary intervals of some sets have the members of the sets. A set has all of an elementary
interval or nothing of it, and where two of them touch some set has one and not the other, so there
are no more of them than the sets ask for. Main statement: `partition_exact`.
-/
namespace PredictiveParsing.CharSet

variable {sets : List CharSet} {s : CharSet} {x y : Interval}

theorem subset_members_of_meets (hs : s ∈ sets) (hx : x ∈ partition sets) {c : Nat}
    (hc : c ∈ x.members) (hcs : c ∈ s.members) : x.members ⊆ s.members := by
  rw [Interval.mem_members] at hc
  obtain ⟨r, hr, hlo, hhi⟩ := mem_members.1 hcs
  obtain ⟨hfirst, hlast⟩ := partition_uncut hs hr hx (by omega) (by omega)
  intro d hd
  rw [Interval.mem_members] at hd
  exact mem_members.2 ⟨r, hr, by omega, by omega⟩

theorem exists_covering_set (hx : x ∈ partition sets) : ∃ s ∈ sets, x.members ⊆ s.members := by
  have hlo := (List.mem_filter.1 hx).2
  rw [contains_ofRanges] at hlo
  obtain ⟨r, hr, hle, hge⟩ := hlo
  obtain ⟨s, hs, hr⟩ := List.mem_flatMap.1 hr
  have hfirst : x.lo ∈ x.members := ⟨Nat.le_refl _, (increasing_partition sets).nonempty x hx⟩
  exact ⟨s, hs, subset_members_of_meets hs hx hfirst (mem_members.2 ⟨r, hr, hle, hge⟩)⟩

theorem iUnion_partition (sets : List CharSet) :
    (⋃ x ∈ partition sets, x.members) = ⋃ s ∈ sets, s.members := by
  ext c
  simp only [Set.mem_iUnion, exists_prop]
  constructor
  · rintro ⟨x, hx, hc⟩
    obtain ⟨s, hs, hsub⟩ := exists_covering_set hx
    exact ⟨s, hs, hsub hc⟩
  · rintro ⟨s, hs, hc⟩
    exact exists_mem_partition hs (contains_iff_mem.2 hc)

theorem lo_mem_of_mem_stretches {bs : List Nat} {r : Interval} (hr : r ∈ stretches bs) :
    r.lo ∈ bs := by
  obtain ⟨⟨a, b⟩, hab, rfl⟩ := List.mem_map.1 hr
  exact (List.of_mem_zip hab).1

theorem exists_set_apart (hy : y ∈ partition sets) (htouch : x.hi + 1 = y.lo) :
    ∃ s ∈ sets, ¬ (x.hi ∈ s.members ↔ y.lo ∈ s.members) := by
  have hbound := lo_mem_of_mem_stretches (List.mem_of_mem_filter hy)
  obtain ⟨s, hs, r, hr, hlo | hlo⟩ := mem_bounds.1 hbound
  · have hrun := maximalRun_of_mem hr
    have hin : y.lo ∈ s.members := hrun.subset ⟨by omega, by have := hrun.nonempty; omega⟩
    refine ⟨s, hs, fun hiff => ?_⟩
    exact hrun.below x.hi (hiff.2 hin) (by omega)
  · have hrun := maximalRun_of_mem hr
    have hin : x.hi ∈ s.members := hrun.subset ⟨by have := hrun.nonempty; omega, by omega⟩
    refine ⟨s, hs, fun hiff => hrun.above ?_⟩
    rw [← hlo]
    exact hiff.1 hin

theorem pairwise_meeting (intervals : List Interval) (r : Interval) :
    (meeting intervals r).Pairwise (· < ·) := by
  have hplaces : (intervals.zipIdx.map Prod.snd).Pairwise (· < ·) := by
    rw [List.zipIdx_map_snd]
    exact List.pairwise_lt_range'
  exact hplaces.sublist (((List.takeWhile_sublist _).trans (List.drop_sublist _ _)).map _)

theorem Increasing.lt_of_lt {intervals : List Interval} (h : Increasing intervals) {i j : Nat}
    (hx : intervals[i]? = some x) (hy : intervals[j]? = some y) (hlt : x.hi < y.lo) : i < j := by
  have hxle := h.nonempty x (List.mem_of_getElem? hx)
  have hyle := h.nonempty y (List.mem_of_getElem? hy)
  rcases Nat.lt_trichotomy i j with hij | rfl | hji
  · exact hij
  · obtain rfl := Option.some.inj (hx.symm.trans hy)
    omega
  · obtain ⟨hi, rfl⟩ := List.getElem?_eq_some_iff.1 hx
    obtain ⟨hj, rfl⟩ := List.getElem?_eq_some_iff.1 hy
    have := List.pairwise_iff_getElem.1 h.apart j i hj hi hji
    omega

theorem pairwise_covering (hs : s ∈ sets) : (covering (partition sets) s).Pairwise (· < ·) := by
  have hincreasing := increasing_partition sets
  -- an elementary interval that meets a range lies in it, so later ranges are met by later ones
  have hwithin {r : Interval} (hr : r ∈ s.ranges) {i : Nat} (hi : i ∈ meeting (partition sets) r) :
      ∃ x, (partition sets)[i]? = some x ∧ r.lo ≤ x.lo ∧ x.hi ≤ r.hi := by
    obtain ⟨x, hx, hlo, hhi⟩ := (mem_meeting hincreasing).1 hi
    exact ⟨x, hx, partition_uncut hs hr (List.mem_of_getElem? hx) hlo hhi⟩
  rw [covering, List.pairwise_flatMap]
  refine ⟨fun r _ => pairwise_meeting _ r, s.separated.apart.imp_of_mem ?_⟩
  intro r r' hr hr' hlt i hi j hj
  obtain ⟨x, hx, -, hhi⟩ := hwithin hr hi
  obtain ⟨y, hy, hlo, -⟩ := hwithin hr' hj
  exact hincreasing.lt_of_lt hx hy (by omega)

theorem mem_covering_partition (hs : s ∈ sets) {i : Nat} :
    i ∈ covering (partition sets) s ↔
      ∃ x, (partition sets)[i]? = some x ∧ x.members ⊆ s.members := by
  have hiff {x : Interval} (hx : (partition sets)[i]? = some x) :
      i ∈ covering (partition sets) s ↔ x.members ⊆ s.members := by
    have hmem := List.mem_of_getElem? hx
    have hle := (increasing_partition sets).nonempty x hmem
    have hlo : x.lo ∈ x.members := ⟨Nat.le_refl _, hle⟩
    rw [← contains_iff_covering hs hx (Nat.le_refl _) hle, contains_iff_mem]
    exact ⟨subset_members_of_meets hs hmem hlo, fun hsub => hsub hlo⟩
  constructor
  · intro hi
    obtain ⟨x, hx, -⟩ := (mem_covering (increasing_partition sets)).1 hi
    exact ⟨x, hx, (hiff hx).1 hi⟩
  · rintro ⟨x, hx, hsub⟩
    exact (hiff hx).2 hsub

theorem iUnion_covering (hs : s ∈ sets) :
    (⋃ x ∈ (covering (partition sets) s).filterMap ((partition sets)[·]?), x.members) =
      s.members := by
  ext c
  simp only [Set.mem_iUnion, List.mem_filterMap, exists_prop]
  constructor
  · rintro ⟨x, ⟨i, hi, hx⟩, hc⟩
    obtain ⟨y, hy, hsub⟩ := (mem_covering_partition hs).1 hi
    obtain rfl := Option.some.inj (hx.symm.trans hy)
    exact hsub hc
  · intro hc
    obtain ⟨x, hx, hcx⟩ := exists_mem_partition hs (contains_iff_mem.2 hc)
    obtain ⟨i, hi⟩ := List.mem_iff_getElem?.1 hx
    have hsub := subset_members_of_meets hs hx hcx hc
    exact ⟨x, ⟨i, (mem_covering_partition hs).2 ⟨x, hi, hsub⟩, hi⟩, hcx⟩

/-- The elementary intervals increase and are the union of the sets. Two code points of one of them
are in the same sets, and two that touch differ in some set. The covering of a set lists, from the
first to the last, the intervals that lie in the set, and they make up the set. -/
theorem partition_exact (sets : List CharSet) :
    Increasing (partition sets) ∧
    (⋃ x ∈ partition sets, x.members) = ⋃ s ∈ sets, s.members ∧
    (∀ x ∈ partition sets, ∀ c ∈ x.members, ∀ d ∈ x.members, ∀ s ∈ sets,
      c ∈ s.members ↔ d ∈ s.members) ∧
    (∀ x ∈ partition sets, ∀ y ∈ partition sets, x.hi + 1 = y.lo →
      ∃ s ∈ sets, ¬ (x.hi ∈ s.members ↔ y.lo ∈ s.members)) ∧
    ∀ s ∈ sets,
      (covering (partition sets) s).Pairwise (· < ·) ∧
      (∀ i, i ∈ covering (partition sets) s ↔
        ∃ x, (partition sets)[i]? = some x ∧ x.members ⊆ s.members) ∧
      (⋃ x ∈ (covering (partition sets) s).filterMap ((partition sets)[·]?), x.members) =
        s.members := by
  refine ⟨increasing_partition sets, iUnion_partition sets, ?_,
    fun x _ y hy htouch => exists_set_apart hy htouch,
    fun s hs => ⟨pairwise_covering hs, fun i => mem_covering_partition hs, iUnion_covering hs⟩⟩
  intro x hx c hc d hd s hs
  exact ⟨fun hcs => subset_members_of_meets hs hx hc hcs hd,
    fun hds => subset_members_of_meets hs hx hd hds hc⟩

def wordSets : List CharSet := [.ofRanges [⟨97, 122⟩], .single 105, .ofRanges [⟨48, 57⟩]]

/-- The letter that is a set of its own is apart from the letter before it. -/
theorem partition_exact_wordSets :
    partition wordSets = [⟨48, 57⟩, ⟨97, 104⟩, ⟨105, 105⟩, ⟨106, 122⟩] ∧
      (∃ s ∈ wordSets, ¬ (104 ∈ s.members ↔ 105 ∈ s.members)) ∧
      ∀ s ∈ wordSets, (covering (partition wordSets) s).Pairwise (· < ·) := by
  have hpartition : partition wordSets = [⟨48, 57⟩, ⟨97, 104⟩, ⟨105, 105⟩, ⟨106, 122⟩] := by
    decide +kernel
  obtain ⟨-, -, -, hapart, hcovering⟩ := partition_exact wordSets
  refine ⟨hpartition, ?_, fun s hs => (hcovering s hs).1⟩
  exact hapart ⟨97, 104⟩ (by simp [hpartition]) ⟨105, 105⟩ (by simp [hpartition]) rfl

end PredictiveParsing.CharSet
