import PredictiveParsing.CharSet.Partition
import PredictiveParsing.Proofs.CharSets

/-!
# The elementary intervals

The elementary intervals of some sets increase, and none of the sets cuts one of them. So a set has
a code point just if it covers the interval that the code point lies in. Main statement:
`contains_iff_covering`.
-/
namespace PredictiveParsing.CharSet

structure Increasing (rs : List Interval) : Prop where
  apart : rs.Pairwise fun a b => a.hi < b.lo
  nonempty : ∀ r ∈ rs, r.lo ≤ r.hi

theorem Increasing.filter {rs : List Interval} (h : Increasing rs) (p : Interval → Bool) :
    Increasing (rs.filter p) :=
  ⟨h.apart.filter p, fun r hr => h.nonempty r (List.mem_of_mem_filter hr)⟩

theorem stretches_cons (a b : Nat) (bs : List Nat) :
    stretches (a :: b :: bs) = ⟨a, b - 1⟩ :: stretches (b :: bs) := rfl

theorem le_lo_stretches {b : Nat} {bs : List Nat} (h : (b :: bs).Pairwise (· < ·)) :
    ∀ r ∈ stretches (b :: bs), b ≤ r.lo := by
  induction bs generalizing b with
  | nil => simp [stretches]
  | cons c bs ih =>
    obtain ⟨hb, hbs⟩ := List.pairwise_cons.1 h
    rw [stretches_cons]
    refine List.forall_mem_cons.2 ⟨Nat.le_refl b, fun r hr => ?_⟩
    have := ih hbs r hr
    have := hb c List.mem_cons_self
    omega

theorem increasing_stretches {bs : List Nat} (h : bs.Pairwise (· < ·)) :
    Increasing (stretches bs) := by
  match bs, h with
  | [], _ => exact ⟨by simp [stretches], by simp [stretches]⟩
  | [_], _ => exact ⟨by simp [stretches], by simp [stretches]⟩
  | a :: b :: bs, h =>
    obtain ⟨ha, hbs⟩ := List.pairwise_cons.1 h
    have hab := ha b List.mem_cons_self
    have hrest := increasing_stretches hbs
    rw [stretches_cons]
    refine ⟨List.pairwise_cons.2 ⟨fun r hr => ?_, hrest.apart⟩,
      List.forall_mem_cons.2 ⟨?_, hrest.nonempty⟩⟩
    · have := le_lo_stretches hbs r hr
      simp only
      omega
    · simp only
      omega

theorem stretch_uncut {bs : List Nat} (h : bs.Pairwise (· < ·)) {r : Interval}
    (hr : r ∈ stretches bs) :
    ∀ b ∈ bs, b ≤ r.lo ∨ r.hi < b := by
  match bs, h with
  | [], _ => simp
  | [_], _ => simp [stretches] at hr
  | a :: b :: bs, h =>
    obtain ⟨ha, hbs⟩ := List.pairwise_cons.1 h
    have hab := ha b List.mem_cons_self
    rw [stretches_cons] at hr
    rcases List.mem_cons.1 hr with rfl | hr
    · refine List.forall_mem_cons.2 ⟨.inl (Nat.le_refl a),
        List.forall_mem_cons.2 ⟨.inr ?_, fun c hc => .inr ?_⟩⟩
      · simp only
        omega
      · have := (List.pairwise_cons.1 hbs).1 c hc
        simp only
        omega
    · refine List.forall_mem_cons.2 ⟨.inl ?_, stretch_uncut hbs hr⟩
      have := le_lo_stretches hbs r hr
      omega

theorem exists_stretch {bs : List Nat} {c : Nat} (hlo : ∃ a ∈ bs.head?, a ≤ c)
    (hhi : ∃ b ∈ bs, c < b) :
    ∃ r ∈ stretches bs, r.lo ≤ c ∧ c ≤ r.hi := by
  match bs with
  | [] => simp at hlo
  | [a] =>
    obtain ⟨b, hb, hlt⟩ := hhi
    obtain ⟨_, ha, hle⟩ := hlo
    simp at ha hb
    omega
  | a :: b :: bs =>
    have ha : a ≤ c := by simpa using hlo
    rw [stretches_cons]
    by_cases hlt : c < b
    · refine ⟨⟨a, b - 1⟩, List.mem_cons_self, ha, ?_⟩
      simp only
      omega
    · have hhead : ∃ x ∈ (b :: bs).head?, x ≤ c := ⟨b, rfl, Nat.le_of_not_lt hlt⟩
      have hrest : ∃ x ∈ b :: bs, c < x := by
        obtain ⟨x, hx, hcx⟩ := hhi
        rcases List.mem_cons.1 hx with rfl | hx
        · omega
        · exact ⟨x, hx, hcx⟩
      obtain ⟨r, hr, hc⟩ := exists_stretch hhead hrest
      exact ⟨r, List.mem_cons_of_mem _ hr, hc⟩

theorem mem_bounds {sets : List CharSet} {b : Nat} :
    b ∈ bounds sets ↔ ∃ s ∈ sets, ∃ r ∈ s.ranges, b = r.lo ∨ b = r.hi + 1 := by
  simp only [bounds, Ascending.mem_ofList, List.mem_flatMap, List.mem_cons,
    List.not_mem_nil, or_false]
  constructor
  · rintro ⟨r, ⟨s, hs, hr⟩, hb⟩
    exact ⟨s, hs, r, hr, hb⟩
  · rintro ⟨s, hs, r, hr, hb⟩
    exact ⟨r, ⟨s, hs, hr⟩, hb⟩

theorem increasing_partition (sets : List CharSet) : Increasing (partition sets) :=
  (increasing_stretches (Ascending.pairwise_ofList _)).filter _

theorem partition_uncut {sets : List CharSet} {s : CharSet} (hs : s ∈ sets) {r x : Interval}
    (hr : r ∈ s.ranges) (hx : x ∈ partition sets) (hlo : r.lo ≤ x.hi) (hhi : x.lo ≤ r.hi) :
    r.lo ≤ x.lo ∧ x.hi ≤ r.hi := by
  have huncut := stretch_uncut (Ascending.pairwise_ofList _) (List.mem_of_mem_filter hx)
  have hfirst := huncut r.lo (mem_bounds.2 ⟨s, hs, r, hr, .inl rfl⟩)
  have hlast := huncut (r.hi + 1) (mem_bounds.2 ⟨s, hs, r, hr, .inr rfl⟩)
  omega

theorem exists_mem_partition {sets : List CharSet} {s : CharSet} (hs : s ∈ sets) {c : Nat}
    (hc : s.contains c = true) : ∃ x ∈ partition sets, x.lo ≤ c ∧ c ≤ x.hi := by
  obtain ⟨r, hr, hlo, hhi⟩ := contains_iff.1 hc
  have hfirst : r.lo ∈ bounds sets := mem_bounds.2 ⟨s, hs, r, hr, .inl rfl⟩
  have hlast : r.hi + 1 ∈ bounds sets := mem_bounds.2 ⟨s, hs, r, hr, .inr rfl⟩
  have hascending : (bounds sets).Pairwise (· < ·) := Ascending.pairwise_ofList _
  have hhead : ∃ a ∈ (bounds sets).head?, a ≤ c := by
    cases hbs : bounds sets with
    | nil => simp [hbs] at hfirst
    | cons a bs =>
      rw [hbs] at hfirst hascending
      refine ⟨a, rfl, Nat.le_trans ?_ hlo⟩
      rcases List.mem_cons.1 hfirst with heq | hmem
      · omega
      · exact Nat.le_of_lt ((List.pairwise_cons.1 hascending).1 _ hmem)
  obtain ⟨x, hx, hxc⟩ := exists_stretch hhead ⟨_, hlast, Nat.lt_succ_of_le hhi⟩
  have huncut := stretch_uncut hascending hx
  have hleft := huncut r.lo hfirst
  have hright := huncut _ hlast
  refine ⟨x, List.mem_filter.2 ⟨hx, ?_⟩, hxc⟩
  rw [contains_ofRanges]
  exact ⟨r, List.mem_flatMap.2 ⟨s, hs, hr⟩, by omega, by omega⟩

theorem mem_takeWhile {α : Type} {p : α → Bool} {xs : List α}
    (h : xs.Pairwise fun x y => p y = true → p x = true) {x : α} :
    x ∈ xs.takeWhile p ↔ x ∈ xs ∧ p x = true := by
  constructor
  · intro hx
    exact ⟨(List.takeWhile_sublist p).subset hx, List.all_eq_true.1 List.all_takeWhile x hx⟩
  · rintro ⟨hx, hp⟩
    rw [← List.takeWhile_append_dropWhile (p := p) (l := xs)] at hx
    rcases List.mem_append.1 hx with hx | hx
    · exact hx
    · rw [of_mem_dropWhile h x hx] at hp
      cases hp

theorem mem_meeting {intervals : List Interval} (h : Increasing intervals) {r : Interval}
    {i : Nat} :
    i ∈ meeting intervals r ↔ ∃ x, intervals[i]? = some x ∧ r.lo ≤ x.hi ∧ x.lo ≤ r.hi := by
  -- the intervals split into those before the range, those that meet it and those after it
  have hordered : intervals.Pairwise fun x y => x.hi < y.lo ∧ y.lo ≤ y.hi :=
    h.apart.imp_of_mem fun _ hy hlt => ⟨hlt, h.nonempty _ hy⟩
  have hbelow : intervals.Pairwise fun x y =>
      decide (y.hi < r.lo) = true → decide (x.hi < r.lo) = true := by
    refine hordered.imp fun hlt hy => ?_
    simp only [decide_eq_true_eq] at hy ⊢
    omega
  have hnumbered : intervals.zipIdx.Pairwise fun x y => x.1.hi < y.1.lo ∧ y.1.lo ≤ y.1.hi := by
    have hmap : (intervals.zipIdx.map Prod.fst).Pairwise fun x y => x.hi < y.lo ∧ y.lo ≤ y.hi := by
      rwa [List.zipIdx_map_fst]
    rwa [List.pairwise_map] at hmap
  have hwithin (n : Nat) : (intervals.zipIdx.drop n).Pairwise fun x y =>
      decide (y.1.lo ≤ r.hi) = true → decide (x.1.lo ≤ r.hi) = true := by
    have hdrop := hnumbered.sublist (List.drop_sublist n _)
    refine hdrop.imp_of_mem fun {x y} hx _ hlt hy => ?_
    have hle := h.nonempty x.1 (List.fst_mem_of_mem_zipIdx (List.mem_of_mem_drop hx))
    simp only [decide_eq_true_eq] at hy ⊢
    omega
  have hstart {x : Interval} (hx : intervals[i]? = some x) :
      bisect (fun y => decide (y.hi < r.lo)) intervals ≤ i ↔ r.lo ≤ x.hi := by
    rw [bisect_le_iff hbelow hx, decide_eq_false_iff_not]
    exact Nat.not_lt
  have hdrop (n : Nat) (x : Interval) :
      (x, i) ∈ intervals.zipIdx.drop n ↔ n ≤ i ∧ intervals[i]? = some x := by
    simp only [List.mem_iff_getElem?, List.getElem?_drop, List.getElem?_zipIdx,
      Option.map_eq_some_iff, Prod.mk.injEq]
    constructor
    · rintro ⟨j, y, hy, rfl, rfl⟩
      exact ⟨by omega, by simpa using hy⟩
    · rintro ⟨hle, hx⟩
      exact ⟨i - n, x, by rwa [Nat.add_sub_cancel' hle], rfl, by omega⟩
  simp only [meeting, List.mem_map, Prod.exists, exists_eq_right, mem_takeWhile (hwithin _), hdrop,
    decide_eq_true_eq]
  constructor
  · rintro ⟨x, ⟨hle, hx⟩, hhi⟩
    exact ⟨x, hx, (hstart hx).1 hle, hhi⟩
  · rintro ⟨x, hx, hlo, hhi⟩
    exact ⟨x, ⟨(hstart hx).2 hlo, hx⟩, hhi⟩

theorem mem_covering {intervals : List Interval} (h : Increasing intervals) {s : CharSet}
    {i : Nat} :
    i ∈ covering intervals s ↔
      ∃ x, intervals[i]? = some x ∧ ∃ r ∈ s.ranges, r.lo ≤ x.hi ∧ x.lo ≤ r.hi := by
  simp only [covering, List.mem_flatMap, mem_meeting h]
  constructor
  · rintro ⟨r, hr, x, hx, hmeets⟩
    exact ⟨x, hx, r, hr, hmeets⟩
  · rintro ⟨x, hx, r, hr, hmeets⟩
    exact ⟨r, hr, x, hx, hmeets⟩

/-- A set has a code point if it covers the elementary interval of the code point. -/
theorem contains_iff_covering {sets : List CharSet} {s : CharSet} (hs : s ∈ sets) {i : Nat}
    {x : Interval}
    (hx : (partition sets)[i]? = some x) {c : Nat} (hlo : x.lo ≤ c) (hhi : c ≤ x.hi) :
    s.contains c = true ↔ i ∈ covering (partition sets) s := by
  rw [mem_covering (increasing_partition sets), contains_iff]
  constructor
  · rintro ⟨r, hr, hle, hge⟩
    exact ⟨x, hx, r, hr, by omega, by omega⟩
  · rintro ⟨y, hy, r, hr, hle, hge⟩
    obtain rfl : x = y := Option.some.inj (hx.symm.trans hy)
    obtain ⟨hle, hge⟩ := partition_uncut hs hr (List.mem_of_getElem? hx) hle hge
    exact ⟨r, hr, by omega, by omega⟩

end PredictiveParsing.CharSet
