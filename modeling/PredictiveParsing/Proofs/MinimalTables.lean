import PredictiveParsing.Proofs.CanonicalTables
import PredictiveParsing.Proofs.Minimization

/-!
# Minimized tables are canonical

Pruning leaves transitions to live states only. Refinement never parts states that say the same of
all texts: what the one does towards a live state the other does as well, so their transitions lead
to the same blocks, and joined lists with the same targets are equal. The last renumbering puts the
states in the order of exploration, whatever their numbers were. Main statement:
`canonical_minimize`.
-/
namespace PredictiveParsing.Dfa

open Exploration Recognizer

variable {d : Dfa} {b : Blocks} {i p q : Nat}

theorem live_of_mem_live (h : d.WellFormed) (hq : q ∈ d.live) : d.recognizer.Live q := by
  obtain ⟨r, hr, hpath⟩ := mem_live.1 hq
  clear hq
  induction hpath with
  | refl => exact ⟨[], (List.mem_filter.1 hr).2⟩
  | @tail q p _ hstep ih =>
    obtain ⟨cs, hcs⟩ := ih
    obtain ⟨t, ht, rfl⟩ := List.mem_map.1 (mem_predecessors.1 hstep).2
    refine ⟨t.lo :: cs, ?_⟩
    rwa [verdict_of_next? (h.next?_lo ht)]

section

variable (h : d.WellFormed) {start : Nat} (hstart : start < d.size) {keep : Nat → Bool}

theorem transitions_renumber (hi : (d.order start keep)[i]? = some q) :
    (d.renumber start keep).transitions i =
      retarget (d.newNumber start keep) (d.transitions q) := by
  rw [renumber_eq, transitions_map, hi]
  rfl

theorem size_renumber (d : Dfa) (start : Nat) (keep : Nat → Bool) :
    (d.renumber start keep).size = (d.order start keep).length := by
  simp [renumber_eq, size]

theorem newNumber_eq_some {j : Nat} (hj : d.newNumber start keep q = some j) :
    keep q = true ∧ (d.order start keep)[j]? = some q := by
  rw [newNumber] at hj
  split at hj
  · next hkeep =>
    obtain ⟨hlt, heq, -⟩ := List.findIdx?_eq_some_iff_getElem.1 hj
    exact ⟨hkeep, by rw [List.getElem?_eq_getElem hlt, beq_iff_eq.1 heq]⟩
  · cases hj

include h

theorem exists_of_leads_renumber {c j : Nat}
    (hj : Leads ((d.renumber start keep).transitions i) c j) :
    ∃ q q', (d.order start keep)[i]? = some q ∧ Leads (d.transitions q) c q' ∧
      keep q' = true ∧ (d.order start keep)[j]? = some q' := by
  cases hi : (d.order start keep)[i]? with
  | none =>
    rw [renumber_eq, transitions_map, hi] at hj
    exact absurd hj not_leads_nil
  | some q =>
    rw [transitions_renumber hi] at hj
    obtain ⟨q', hq', hnew⟩ := (leads_retarget (h.ordered q)).1 hj
    obtain ⟨hkeep, hget⟩ := newNumber_eq_some hnew
    exact ⟨q, q', rfl, hq', hkeep, hget⟩

include hstart

theorem trim_renumber (hlive : ∀ q, keep q = true → d.recognizer.Live q)
    (hdead : ∀ q, keep q = false → ∀ cs, d.verdict q cs = none) :
    (d.renumber start keep).Trim := by
  intro i t ht
  have hne := ((wellFormed_renumber h).ordered i).nonempty t ht
  obtain ⟨q, q', -, -, hkeep, hget⟩ :=
    exists_of_leads_renumber h ⟨t, ht, Nat.le_refl _, hne, rfl⟩
  obtain ⟨cs, hcs⟩ := hlive q' hkeep
  refine ⟨cs, ?_⟩
  rw [verdict_recognizer] at hcs
  rwa [verdict_recognizer, verdict_renumber h hstart hdead hget]

end

theorem trim_prune (h : d.WellFormed) (hsize : 0 < d.size) : d.prune.Trim := by
  refine trim_renumber h hsize (fun q hq => ?_) fun _ => verdict_of_not_live h
  exact live_of_mem_live h (List.contains_iff_mem.1 hq)

def JoinsAlike (d : Dfa) (b : Blocks) : Prop :=
  ∀ p < d.size, ∀ q < d.size, Alike d.recognizer p d.recognizer q → b.block p = b.block q

theorem joinsAlike_acceptBlocks (d : Dfa) : d.JoinsAlike d.acceptBlocks := by
  intro p hp q hq hlike
  have haccept : d.accept? p = d.accept? q := hlike []
  exact ((acceptBlocks_divides d).same p hp q hq).2 (congrArg (Prod.mk 0) haccept)

theorem leads_blockTransitions {c : Nat} (h : d.WellFormed) :
    Leads (blockTransitions b (d.transitions q)) c i ↔
      ∃ q', d.next? q c = some q' ∧ b.block q' = i := by
  rw [blockTransitions, leads_retarget (h.ordered q)]
  simp only [next?_eq_some (h.ordered q), Option.some.injEq]

section

variable (h : d.WellFormed) (htrim : d.Trim)

include h htrim

theorem JoinsAlike.leads (hb : d.JoinsAlike b) (hlike : Alike d.recognizer p d.recognizer q)
    {c : Nat} (hi : Leads (blockTransitions b (d.transitions p)) c i) :
    Leads (blockTransitions b (d.transitions q)) c i := by
  obtain ⟨p', hp', rfl⟩ := (leads_blockTransitions h).1 hi
  obtain ⟨q', hq', hlike'⟩ := hlike.next hp' (htrim.live h hp')
  refine (leads_blockTransitions h).2 ⟨q', hq', ?_⟩
  exact hb q' (h.next?_lt hq') p' (h.next?_lt hp') hlike'.symm

theorem JoinsAlike.refine (hb : d.JoinsAlike b) (hcovers : b.Covers d.size) :
    d.JoinsAlike (d.refine b) := by
  intro p hp q hq hlike
  have htransitions :
      blockTransitions b (d.transitions p) = blockTransitions b (d.transitions q) :=
    Joined.ext ((h.ordered p).retarget _) (joined_retarget (h.ordered p) _)
      ((h.ordered q).retarget _) (joined_retarget (h.ordered q) _)
      fun _ _ => ⟨hb.leads h htrim hlike, hb.leads h htrim hlike.symm⟩
  exact ((refine_divides hcovers).same p hp q hq).2 (Prod.ext (hb p hp q hq hlike) htransitions)

theorem JoinsAlike.refineFully (hb : d.JoinsAlike b) (hcovers : b.Covers d.size) (fuel : Nat) :
    d.JoinsAlike (d.refineFully fuel b) := by
  induction fuel generalizing b with
  | zero => exact hb
  | succ fuel ih =>
    have hnext := hb.refine h htrim hcovers
    rw [Dfa.refineFully]
    split
    · exact hnext
    · exact ih hnext (refine_divides hcovers).toCovers

end

section

variable (h : d.WellFormed) (hb : b.Covers d.size) (haccepts : d.AcceptsAlike b)
  (hleads : d.LeadsAlike b)

include h hb

theorem joined_quotient (i : Nat) : Joined ((d.quotient b).transitions i) := by
  by_cases hi : i < b.count
  · obtain ⟨q, hq, rfl⟩ := hb.onto i hi
    obtain ⟨p, -, -, htransitions, -⟩ := exists_quotient_state hb hq
    rw [htransitions]
    exact joined_retarget (h.ordered p) _
  · rw [transitions_of_size_le (by rw [size_quotient]; omega)]
    exact .nil

include haccepts hleads

theorem alike_quotient (hq : q < d.size) :
    Alike (d.quotient b).recognizer (b.block q) d.recognizer q := by
  intro cs
  rw [verdict_recognizer, verdict_recognizer, verdict_quotient h hb haccepts hleads hq]

theorem trim_quotient (htrim : d.Trim) : (d.quotient b).Trim := by
  intro i t ht
  have hi : i < b.count := by
    by_contra hge
    rw [transitions_of_size_le (by rw [size_quotient]; omega)] at ht
    cases ht
  obtain ⟨q, hq, rfl⟩ := hb.onto i hi
  obtain ⟨p, -, -, htransitions, -⟩ := exists_quotient_state hb hq
  have hne := ((wellFormed_quotient h hb).ordered _).nonempty t ht
  rw [htransitions] at ht
  obtain ⟨p', hp', heq⟩ :=
    (leads_blockTransitions h).1 ⟨t, ht, Nat.le_refl _, hne, rfl⟩
  obtain ⟨cs, hcs⟩ := htrim.live h hp'
  refine ⟨cs, ?_⟩
  rwa [← heq, alike_quotient h hb haccepts hleads (h.next?_lt hp')]

theorem reduced_quotient (hjoins : d.JoinsAlike b) : (d.quotient b).Reduced := by
  intro i hi j hj hlike
  rw [size_quotient] at hi hj
  obtain ⟨p, hp, rfl⟩ := hb.onto i hi
  obtain ⟨q, hq, rfl⟩ := hb.onto j hj
  have hpq := (alike_quotient h hb haccepts hleads hp).symm.trans
    (hlike.trans (alike_quotient h hb haccepts hleads hq))
  exact hjoins p hp q hq hpq

end

def renumberAll (d : Dfa) (start : Nat) : Dfa := d.renumber start fun _ => true

def oldNumber (d : Dfa) (start i : Nat) : Nat := (d.order start fun _ => true)[i]?.getD 0

section

variable (h : d.WellFormed) {start : Nat} (hstart : start < d.size)

theorem getElem?_order_zero (d : Dfa) (start : Nat) :
    (d.order start fun _ => true)[0]? = some start := getElem?_reachable_zero _ _ _

theorem renumberAll_nonempty : 0 < (d.renumberAll start).size := by
  rw [renumberAll, size_renumber]
  exact (List.getElem?_eq_some_iff.1 (getElem?_order_zero d start)).1

theorem getElem?_oldNumber (hi : i < (d.renumberAll start).size) :
    (d.order start fun _ => true)[i]? = some (d.oldNumber start i) := by
  rw [renumberAll, size_renumber] at hi
  rw [oldNumber, List.getElem?_eq_getElem hi, Option.getD_some]

theorem oldNumber_zero : d.oldNumber start 0 = start :=
  Option.some.inj
    ((getElem?_oldNumber renumberAll_nonempty).symm.trans (getElem?_order_zero d start))

include h hstart

theorem oldNumber_lt (hi : i < (d.renumberAll start).size) : d.oldNumber start i < d.size :=
  lt_of_mem_order h hstart (List.mem_of_getElem? (getElem?_oldNumber hi))

theorem alike_renumberAll (hi : i < (d.renumberAll start).size) :
    Alike (d.renumberAll start).recognizer i d.recognizer (d.oldNumber start i) := by
  intro cs
  rw [verdict_recognizer, verdict_recognizer]
  exact verdict_renumber h hstart (fun _ hkeep => by cases hkeep) (getElem?_oldNumber hi) cs

theorem injOn_oldNumber : Set.InjOn (d.oldNumber start) {i | i < (d.renumberAll start).size} := by
  intro i hi j hj heq
  have hnodup : (d.order start fun _ => true).Nodup :=
    nodup_reachable (encloses_targets h hstart _) (by rw [Finset.card_range])
  have hlt : i < (d.order start fun _ => true).length := by
    rw [← size_renumber]
    exact hi
  refine (List.getElem?_inj hlt hnodup).1 ?_
  rw [getElem?_oldNumber hi, getElem?_oldNumber hj, heq]

theorem leads_oldNumber (hi : i < (d.renumberAll start).size) {c q' : Nat} :
    Leads (d.transitions (d.oldNumber start i)) c q' ↔
      ∃ j, Leads ((d.renumberAll start).transitions i) c j ∧ d.oldNumber start j = q' := by
  have hget := getElem?_oldNumber hi
  constructor
  · intro hq'
    have hnext := (next?_eq_some (h.ordered _)).2 hq'
    obtain ⟨j, hj, hget'⟩ := exists_newNumber h hstart (List.mem_of_getElem? hget) hnext rfl
    refine ⟨j, ?_, by rw [oldNumber, hget', Option.getD_some]⟩
    rw [renumberAll, transitions_renumber hget, leads_retarget (h.ordered _)]
    exact ⟨q', hq', hj⟩
  · rintro ⟨j, hj, rfl⟩
    obtain ⟨q, q', hq, hq', -, hget'⟩ := exists_of_leads_renumber h hj
    obtain rfl : d.oldNumber start i = q := Option.some.inj (hget.symm.trans hq)
    have heq : d.oldNumber start j = q' := by rw [oldNumber, hget', Option.getD_some]
    rwa [heq]

theorem transitions_oldNumber (hjoined : ∀ q, Joined (d.transitions q))
    (hi : i < (d.renumberAll start).size) :
    d.transitions (d.oldNumber start i) =
      relabel (d.oldNumber start) ((d.renumberAll start).transitions i) := by
  have hwf : (d.renumberAll start).WellFormed := wellFormed_renumber h
  have hget := getElem?_oldNumber hi
  have hjoined' : Joined ((d.renumberAll start).transitions i) := by
    rw [renumberAll, transitions_renumber hget]
    exact joined_retarget (h.ordered _) _
  have hinRange : ∀ t ∈ (d.renumberAll start).transitions i,
      t.target ∈ {i | i < (d.renumberAll start).size} := hwf.inRange i
  refine Joined.ext (h.ordered _) (hjoined _) ((hwf.ordered i).relabel _)
    (hjoined'.relabel hinRange (injOn_oldNumber h hstart)) fun c q' => ?_
  rw [leads_oldNumber h hstart hi, leads_relabel]

theorem size_renumberAll_le : (d.renumberAll start).size ≤ d.size := by
  have hle : (Finset.range (d.renumberAll start).size).card ≤ (Finset.range d.size).card := by
    refine Finset.card_le_card_of_injOn (d.oldNumber start) (fun i hi => ?_) ?_
    · exact Finset.mem_range.2 (oldNumber_lt h hstart (Finset.mem_range.1 hi))
    · rw [Finset.coe_range]
      exact injOn_oldNumber h hstart
  rwa [Finset.card_range, Finset.card_range] at hle

theorem order_eq_map_oldNumber (hjoined : ∀ q, Joined (d.transitions q)) :
    d.order start (fun _ => true) =
      ((d.renumberAll start).order 0 fun _ => true).map (d.oldNumber start) := by
  have hwf : (d.renumberAll start).WellFormed := wellFormed_renumber h
  have hfuel := reachable_of_le (encloses_targets hwf renumberAll_nonempty fun _ => true)
    (Nat.le_of_eq (Finset.card_range _)) (size_renumberAll_le h hstart)
  simp only [List.filter_true] at hfuel
  rw [order_all, order_all, ← hfuel,
    ← hwf.reachable_relabel renumberAll_nonempty (injOn_oldNumber h hstart)
      fun i => transitions_oldNumber h hstart hjoined, oldNumber_zero]

theorem order_renumberAll (hjoined : ∀ q, Joined (d.transitions q)) :
    (d.renumberAll start).order 0 (fun _ => true) = List.range (d.renumberAll start).size := by
  have hwf : (d.renumberAll start).WellFormed := wellFormed_renumber h
  have hmap := order_eq_map_oldNumber h hstart hjoined
  refine List.ext_getElem? fun i => ?_
  have hget := congrArg (·[i]?) hmap
  rw [List.getElem?_map] at hget
  by_cases hi : i < (d.renumberAll start).size
  · rw [getElem?_oldNumber hi] at hget
    obtain ⟨j, hj, heq⟩ := Option.map_eq_some_iff.1 hget.symm
    have hlt : j < (d.renumberAll start).size :=
      lt_of_mem_order hwf renumberAll_nonempty (List.mem_of_getElem? hj)
    rw [hj, List.getElem?_range hi, injOn_oldNumber h hstart hlt hi heq]
  · have hnone : (d.order start fun _ => true)[i]? = none := by
      rw [List.getElem?_eq_none]
      rw [← size_renumber]
      exact Nat.le_of_not_lt hi
    rw [hnone] at hget
    rw [Option.map_eq_none_iff.1 hget.symm, List.getElem?_eq_none (by simpa using hi)]

theorem canonical_renumberAll (hjoined : ∀ q, Joined (d.transitions q)) (htrim : d.Trim)
    (hreduced : d.Reduced) : (d.renumberAll start).Canonical := by
  have hwf : (d.renumberAll start).WellFormed := wellFormed_renumber h
  refine ⟨hwf, renumberAll_nonempty, fun i => ?_, fun i t ht => ?_, fun i hi j hj hlike => ?_,
    order_renumberAll h hstart hjoined⟩
  · by_cases hi : i < (d.renumberAll start).size
    · rw [renumberAll, transitions_renumber (getElem?_oldNumber hi)]
      exact joined_retarget (h.ordered _) _
    · rw [transitions_of_size_le (Nat.le_of_not_lt hi)]
      exact .nil
  · obtain ⟨q, q', -, hq', -, hget⟩ := exists_of_leads_renumber h
      ((next?_eq_some (hwf.ordered i)).1 (hwf.next?_lo ht))
    obtain ⟨cs, hcs⟩ := htrim.live h ((next?_eq_some (h.ordered q)).2 hq')
    have hlt := hwf.inRange i t ht
    refine ⟨cs, ?_⟩
    rwa [alike_renumberAll h hstart hlt, oldNumber, hget]
  · have hold := (alike_renumberAll h hstart hi).symm.trans
      (hlike.trans (alike_renumberAll h hstart hj))
    have heq := hreduced _ (oldNumber_lt h hstart hi) _ (oldNumber_lt h hstart hj) hold
    exact injOn_oldNumber h hstart hi hj heq

end

/-- Minimizing a table whose transitions lead to live states gives a canonical table. -/
theorem canonical_minimize (h : d.WellFormed) (hsize : 0 < d.size) (htrim : d.Trim) :
    d.minimize.Canonical := by
  obtain ⟨hcovers, haccepts, hleads⟩ := refineFully_acceptBlocks h hsize
  have hjoins := (joinsAlike_acceptBlocks d).refineFully h htrim
    (acceptBlocks_divides d).toCovers d.size
  have hblock : (d.refineFully d.size d.acceptBlocks).block 0 <
      (d.quotient (d.refineFully d.size d.acceptBlocks)).size := by
    rw [size_quotient]
    exact hcovers.lt 0 hsize
  rw [minimize, if_neg (Nat.ne_of_gt hsize)]
  exact canonical_renumberAll (wellFormed_quotient h hcovers) hblock (joined_quotient h hcovers)
    (trim_quotient h hcovers haccepts hleads htrim)
    (reduced_quotient h hcovers haccepts hleads hjoins)

end PredictiveParsing.Dfa
