import PredictiveParsing.Lookahead.Search
import PredictiveParsing.Proofs.FollowSets

/-!
# Predictions are right

What a way out of a choice derives, with what comes after it, begins with a member of the set that
selects the way, at whatever depth the search ends. A way before it that accepts the same input
would share an upcoming text with it, which a resolved plan rules out. Main statement:
`select_continuation`.
-/
namespace PredictiveParsing

open SequenceSet

namespace SequenceSet

variable {a b : SequenceSet} {upcoming x y : List Nat}

theorem accepts_iff : a.accepts upcoming = true ↔ ∃ x ∈ a, x <+: upcoming := by
  simp only [accepts, List.any_eq_true, List.isPrefixOf_iff_prefix]
  rfl

theorem isSome_sharedStart? (hx : x <+: upcoming) (hy : y <+: upcoming) :
    (sharedStart? x y).isSome := by
  have hcut : x.take (min x.length y.length) = y.take (min x.length y.length) := by
    rw [List.prefix_iff_eq_take.1 hx, List.prefix_iff_eq_take.1 hy, List.take_take, List.take_take]
    congr 1
    simp only [List.length_take]
    omega
  rw [sharedStart?, if_pos hcut]
  rfl

theorem isSome_overlap? (ha : a.accepts upcoming = true) (hb : b.accepts upcoming = true) :
    (a.overlap? b).isSome := by
  obtain ⟨x, hx, hxu⟩ := accepts_iff.1 ha
  obtain ⟨y, hy, hyu⟩ := accepts_iff.1 hb
  rw [overlap?, List.findSome?_isSome_iff]
  refine ⟨x, hx, ?_⟩
  rw [List.findSome?_isSome_iff]
  exact ⟨y, hy, isSome_sharedStart? hxu hyu⟩

end SequenceSet

namespace Alternative

theorem select_eq_findIdx? {as : List Alternative} (h : ∀ a ∈ as, a.guard = none)
    (holds : String → Bool)
    (upcoming : List Nat) :
    (select holds upcoming as).1 = as.findIdx? fun a => a.set.accepts upcoming := by
  induction as with
  | nil => rfl
  | cons a as ih =>
    have haccepts : a.accepts holds upcoming = (a.set.accepts upcoming, []) := by
      rw [accepts, h a List.mem_cons_self]
    have hrest := ih fun b hb => h b (List.mem_cons_of_mem _ hb)
    rw [select, haccepts, List.findIdx?_cons]
    cases a.set.accepts upcoming with
    | true => rfl
    | false => exact congrArg (Option.map (· + 1)) hrest

end Alternative

theorem Plan.depth_le_maxDepth {p : Plan} {a : Alternative} (h : a ∈ p.alternatives) :
    a.depth ≤ p.maxDepth := by
  have hfold (as : List Alternative) (n : Nat) :
      n ≤ as.foldl (fun n a => max n a.depth) n ∧
        ∀ a ∈ as, a.depth ≤ as.foldl (fun n a => max n a.depth) n := by
    induction as generalizing n with
    | nil => exact ⟨Nat.le_refl n, by simp⟩
    | cons b as ih =>
      obtain ⟨hle, hmem⟩ := ih (max n b.depth)
      exact ⟨by rw [List.foldl_cons]; omega,
        List.forall_mem_cons.2 ⟨by rw [List.foldl_cons]; omega, hmem⟩⟩
  exact (hfold p.alternatives 0).2 a h

namespace ChoiceSearch

variable {s : GrammarSets} {ways : List (Option Nat)} {choice bound : Nat} {c : ChoiceSearch}

structure Told (s : GrammarSets) (choice : Nat) (ways : List (Option Nat)) (bound : Nat)
    (c : ChoiceSearch) : Prop where
  choice_eq : c.choice = choice
  length_eq : c.alternatives.length = ways.length
  told : ∀ (i : Nat) way, ways[i]? = some way →
    ∃ d, 1 ≤ d ∧ d ≤ bound ∧ c.alternatives[i]? = some (.atDepth s choice way d)

theorem Told.exists_way (h : Told s choice ways bound c) {a : Alternative}
    (ha : a ∈ c.alternatives) :
    ∃ way d, a = .atDepth s choice way d := by
  obtain ⟨i, hi, rfl⟩ := List.mem_iff_getElem.1 ha
  have hway : i < ways.length := h.length_eq ▸ hi
  obtain ⟨d, -, -, hd⟩ := h.told i ways[i] (List.getElem?_eq_getElem hway)
  rw [List.getElem?_eq_getElem hi] at hd
  exact ⟨_, d, Option.some.inj hd⟩

theorem start_told {g : Grammar} (hstated : ∀ alt, some alt ∈ (g.kindOf choice).ways →
    g.statedLookahead? alt = none) (hbound : 1 ≤ bound) :
    Told s choice (g.kindOf choice).ways bound (start g s choice) := by
  refine ⟨rfl, List.length_map _, fun i way hway => ⟨1, Nat.le_refl 1, hbound, ?_⟩⟩
  have hinitial : Alternative.initial g s choice way = .atDepth s choice way 1 := by
    cases way with
    | none => rfl
    | some alt =>
      rw [Alternative.initial, Option.bind_some, hstated alt (List.mem_of_getElem? hway)]
      rfl
  rw [start, List.getElem?_map, hway, Option.map_some, hinitial]

theorem Told.grow (h : Told s choice ways bound c) {k : Nat} (hk : 1 ≤ k) (hbound : k ≤ bound) :
    Told s choice ways bound (c.grow s k) := by
  refine ⟨h.choice_eq, List.length_mapIdx.trans h.length_eq, fun i way hway => ?_⟩
  obtain ⟨d, hd, hle, heq⟩ := h.told i way hway
  rw [ChoiceSearch.grow, List.getElem?_mapIdx, heq, Option.map_some, h.choice_eq]
  split
  · exact ⟨k, hk, hbound, rfl⟩
  · exact ⟨d, hd, hle, rfl⟩

theorem Told.run (h : Told s choice ways bound c) {left k : Nat} (hbound : k + left ≤ bound) :
    Told s choice ways bound (c.run s left k).2 := by
  induction left generalizing k c with
  | zero => exact h
  | succ left ih =>
    rw [ChoiceSearch.run]
    split
    · exact ih (h.grow (Nat.succ_pos k) (by omega)) (by omega)
    · exact h

theorem firstMeeting?_eq_none_iff {l : List (Alternative × Nat)} :
    firstMeeting? l = none ↔ l.Pairwise fun p q => p.1.set.overlap? q.1.set = none := by
  induction l with
  | nil => simp [firstMeeting?]
  | cons p l ih =>
    obtain ⟨a, i⟩ := p
    rw [firstMeeting?, List.pairwise_cons, ← ih]
    split
    · next h =>
      obtain ⟨q, hq, hsome⟩ := List.exists_of_findSome?_eq_some h
      obtain ⟨shared, hshared, -⟩ := Option.map_eq_some_iff.1 hsome
      refine iff_of_false (by simp) fun hall => ?_
      rw [hall.1 q hq] at hshared
      cases hshared
    · next h =>
      have hlater : ∀ q ∈ l, a.set.overlap? q.1.set = none := fun q hq =>
        Option.map_eq_none_iff.1 (List.findSome?_eq_none_iff.1 h q hq)
      exact (and_iff_right hlater).symm

theorem mem_checked {a : Alternative} {i : Nat} : (a, i) ∈ c.checked ↔
    c.alternatives[i]? = some a ∧ (c.force = true ∨ a.guard = none) := by
  rw [checked, List.mem_filter, List.mk_mem_zipIdx_iff_getElem?]
  simp [Alternative.isExplicit]

theorem checked_increasing (c : ChoiceSearch) : c.checked.Pairwise fun p q => p.2 < q.2 := by
  have hplaces : (c.alternatives.zipIdx.map Prod.snd).Pairwise (· < ·) := by
    rw [List.zipIdx_map_snd]
    exact List.pairwise_lt_range'
  exact (List.pairwise_map.1 hplaces).filter _

theorem overlap?_eq_none_of_resolved (h : c.outcome = .resolved) {p q : Alternative × Nat}
    (hp : p ∈ c.checked) (hq : q ∈ c.checked) (hlt : p.2 < q.2) :
    p.1.set.overlap? q.1.set = none := by
  have hapart := firstMeeting?_eq_none_iff.1 (outcome_resolved_iff.1 h)
  obtain ⟨m, hm, rfl⟩ := List.mem_iff_getElem.1 hp
  obtain ⟨n, hn, rfl⟩ := List.mem_iff_getElem.1 hq
  have hincreasing := List.pairwise_iff_getElem.1 c.checked_increasing
  have hmn : m < n := by
    by_contra hle
    rcases Nat.lt_or_eq_of_le (Nat.le_of_not_lt hle) with hnm | rfl
    · exact Nat.lt_asymm hlt (hincreasing n m hn hm hnm)
    · exact Nat.lt_irrefl _ hlt
  exact List.pairwise_iff_getElem.1 hapart m n hm hn hmn

theorem Told.checked_eq (h : Told s choice ways bound c) : c.checked = c.alternatives.zipIdx := by
  rw [checked, List.filter_eq_self]
  rintro ⟨a, i⟩ ha
  obtain ⟨way, d, rfl⟩ := h.exists_way (List.fst_mem_of_mem_zipIdx ha)
  simp [Alternative.isExplicit, Alternative.atDepth]

theorem Told.overlap?_eq_none (h : Told s choice ways bound c) (hresolved : c.outcome = .resolved)
    {i j : Nat} {a b : Alternative} (ha : c.alternatives[i]? = some a)
    (hb : c.alternatives[j]? = some b)
    (hij : i < j) : a.set.overlap? b.set = none := by
  have hmem {i : Nat} {a : Alternative} (ha : c.alternatives[i]? = some a) : (a, i) ∈ c.checked := by
    rw [h.checked_eq, List.mk_mem_zipIdx_iff_getElem?]
    exact ha
  exact overlap?_eq_none_of_resolved hresolved (hmem ha) (hmem hb) hij

end ChoiceSearch

namespace Grammar

variable {g : Grammar} {c i : Nat} {way : Option Nat} {t upcoming : List Nat}

/-- The token sequences that a parser at `c` may find before it when `way` is the right way out:
what an alternative derives with what follows the alternative, or what follows `c`. -/
def Continues (g : Grammar) (c : Nat) : Option Nat → List Nat → Prop
  | some alt, t => ∃ w f, g.Derives alt w ∧ g.Follows alt f ∧ w ++ f = t
  | none, t => g.Follows c t

theorem Continues.take_mem_selecting (h : g.Continues c way t) (hc : c < g.nodes.size) {d : Nat}
    (hd : d ≤ g.computeSets.1.k) : t.take d ∈ g.computeSets.1.selecting c way d := by
  have hcut (w : List Nat) : (w.take g.computeSets.1.k).take d = w.take d := by
    rw [List.take_take, Nat.min_eq_left hd]
  cases way with
  | some alt =>
    obtain ⟨w, f, hw, hf, rfl⟩ := h
    have hmem := append_mem_concat (g.take_mem_first hw) (g.take_mem_follow hf hw.lt) d
    have hfirst := hcut w
    have hfollow := hcut f
    generalize g.computeSets.1.k = k at hmem hfirst hfollow
    rwa [← take_append_take, hfollow, take_append_take, ← take_take_append, hfirst,
      take_take_append] at hmem
  | none => exact mem_truncate.2 ⟨_, g.take_mem_follow h hc, hcut t⟩

theorem searchBound_le (g : Grammar) : g.searchBound g.computeSets.1 ≤ g.computeSets.1.k :=
  Nat.max_le.2 ⟨g.one_le_setBound, Nat.min_le_right _ _⟩

theorem planChoices_eq {s : GrammarSets} {p : Plan} (h : (g.planChoices s).1[c]? = some (some p)) :
    c < g.nodes.size ∧ (g.planChoice s c).1 = p := by
  rw [planChoices, List.map_map, List.getElem?_map, nodeIds] at h
  obtain ⟨id, hid, h⟩ := Option.map_eq_some_iff.1 h
  obtain ⟨hlt, rfl⟩ := List.getElem?_eq_some_iff.1 hid
  rw [List.length_range] at hlt
  rw [List.getElem_range, Function.comp_apply] at h
  split at h
  · exact ⟨hlt, Option.some.inj h⟩
  · cases h

theorem planChoice_told {p : Plan} (hplan : (g.planChoices g.computeSets.1).1[c]? = some (some p))
    (hstated : ∀ alt, some alt ∈ (g.kindOf c).ways → g.statedLookahead? alt = none) :
    ∃ (search : ChoiceSearch) (searched : Nat), p = search.plan searched ∧
      search.Told g.computeSets.1 c (g.kindOf c).ways g.computeSets.1.k := by
  obtain ⟨-, rfl⟩ := planChoices_eq hplan
  have hk : 1 ≤ g.computeSets.1.k := g.one_le_setBound
  refine ⟨_, _, rfl, (ChoiceSearch.start_told hstated hk).run ?_⟩
  have hle := g.searchBound_le
  have hpos : 1 ≤ g.searchBound g.computeSets.1 := Nat.le_max_left _ _
  omega

/-- On input that begins with what a way out of a choice leads to, a resolved plan selects that way,
and one with a conflict selects that way or an earlier one. Input that ends early has to show as
many tokens as the plan looks at. -/
theorem select_continuation {p : Plan}
    (hplan : (g.planChoices g.computeSets.1).1[c]? = some (some p))
    (hstated : ∀ alt, some alt ∈ (g.kindOf c).ways → g.statedLookahead? alt = none)
    (hway : (g.kindOf c).ways[i]? = some way) (ht : g.Continues c way t)
    (hupcoming : t <+: upcoming ∨ upcoming <+: t ∧ p.maxDepth ≤ upcoming.length) :
    (p.outcome = .resolved → p.select upcoming = some i) ∧
      (∀ first second shared, p.outcome = .conflict first second shared →
        ∃ j ≤ i, p.select upcoming = some j) := by
  obtain ⟨search, searched, rfl, htold⟩ := planChoice_told hplan hstated
  obtain ⟨d, -, hd, halt⟩ := htold.told i way hway
  have hselect : (search.plan searched).select upcoming =
      search.alternatives.findIdx? fun a => a.set.accepts upcoming := by
    refine Alternative.select_eq_findIdx? (fun a ha => ?_) _ upcoming
    obtain ⟨way, d, rfl⟩ := htold.exists_way ha
    rfl
  have hprefix : t.take d <+: upcoming := by
    rcases hupcoming with h | ⟨h, hdepth⟩
    · exact (List.take_prefix d t).trans h
    · have hle : d ≤ upcoming.length :=
        Nat.le_trans
          (Plan.depth_le_maxDepth (p := search.plan searched) (List.mem_of_getElem? halt)) hdepth
      exact List.prefix_of_prefix_length_le (List.take_prefix d t) h
        (Nat.le_trans (List.length_take_le d t) hle)
  have haccepts : (g.computeSets.1.selecting c way d).accepts upcoming = true :=
    accepts_iff.2 ⟨_, ht.take_mem_selecting (planChoices_eq hplan).1 hd, hprefix⟩
  obtain ⟨j, hj⟩ : ∃ j, search.alternatives.findIdx? (fun a => a.set.accepts upcoming) = some j :=
    ⟨_, List.findIdx?_eq_some_of_exists ⟨_, List.mem_of_getElem? halt, haccepts⟩⟩
  obtain ⟨hlt, hfirst, hnone⟩ := List.findIdx?_eq_some_iff_getElem.1 hj
  have hle : j ≤ i := by
    by_contra hij
    obtain ⟨hi, heq⟩ := List.getElem?_eq_some_iff.1 halt
    exact hnone i (Nat.lt_of_not_le hij) (by rw [heq]; exact haccepts)
  rw [hselect, hj]
  refine ⟨fun hresolved => ?_, fun _ _ _ _ => ⟨j, hle, rfl⟩⟩
  -- an earlier way that accepts would share an upcoming text with the right one
  rcases Nat.lt_or_eq_of_le hle with hij | rfl
  · have hoverlap := isSome_overlap? hfirst haccepts
    have hapart := htold.overlap?_eq_none hresolved (List.getElem?_eq_getElem hlt) halt hij
    rw [Alternative.atDepth] at hapart
    rw [hapart] at hoverlap
    cases hoverlap
  · rfl

theorem select_continuation_itemList :
    ∃ p, (itemList.planChoices itemList.computeSets.1).1[4]? = some (some p) ∧
      p.outcome = .resolved ∧
      p.select [1, eofKind] = some 0 := by
  have hways : (itemList.kindOf 4).ways = [some 2, some 3] := rfl
  have hplan : (itemList.planChoices itemList.computeSets.1).1[4]? =
      some (some (itemList.planChoice itemList.computeSets.1 4).1) := rfl
  have hstated : ∀ alt, some alt ∈ (itemList.kindOf 4).ways →
      itemList.statedLookahead? alt = none := by
    rw [hways]
    simp only [List.mem_cons, Option.some.injEq, List.not_mem_nil, or_false]
    rintro alt (rfl | rfl) <;> rfl
  have hroot : itemList.Follows 4 [eofKind] :=
    @Follows.start itemList ⟨"List", 0, 4, none, .none⟩ (Array.mem_of_getElem? (i := 0) rfl) rfl
  have hkind : itemList.HasKind 4 (.choice [2, 3]) := rfl
  have hcontinues : itemList.Continues 4 (some 2) [1, eofKind] :=
    ⟨[1], [eofKind], itemList_derives_cons itemList_derives_empty,
      .alternative hkind (by decide) hroot, rfl⟩
  have hresolved : (itemList.planChoice itemList.computeSets.1 4).1.outcome = .resolved := by
    decide +kernel
  have hway : (itemList.kindOf 4).ways[0]? = some (some 2) := rfl
  exact ⟨_, hplan, hresolved,
    (select_continuation hplan hstated hway hcontinues (.inl (List.prefix_refl _))).1 hresolved⟩

end Grammar
end PredictiveParsing
