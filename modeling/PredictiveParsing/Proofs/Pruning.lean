import PredictiveParsing.Automaton.Minimal
import PredictiveParsing.Proofs.Exploration
import PredictiveParsing.Proofs.Transitions

/-!
# Renumbering and pruning

A renumbered automaton says of every text what the original says, if only states are dropped from
which nothing is accepted. Pruning drops just those. Main statements: `verdict_renumber` and
`verdict_prune`.
-/
namespace PredictiveParsing.Dfa

open Exploration

variable {d : Dfa} {q q' c : Nat}

theorem next?_retarget {d' : Dfa} {i : Nat} {rename : Nat → Option Nat}
    (h : Ordered (d.transitions q))
    (hi : d'.transitions i = retarget rename (d.transitions q)) :
    d'.next? i c = (d.next? q c).bind rename := by
  have hordered : Ordered (d'.transitions i) := hi ▸ h.retarget rename
  apply Option.ext
  intro p
  rw [next?_eq_some hordered, hi, leads_retarget h, Option.bind_eq_some_iff]
  simp only [next?_eq_some h]

def order (d : Dfa) (start : Nat) (keep : Nat → Bool) : List Nat :=
  reachable (fun q => (d.targets q).filter keep) d.size [start]

def newNumber (d : Dfa) (start : Nat) (keep : Nat → Bool) (q : Nat) : Option Nat :=
  if keep q then (d.order start keep).idxOf? q else none

theorem renumber_eq (d : Dfa) (start : Nat) (keep : Nat → Bool) :
    d.renumber start keep = ⟨((d.order start keep).map fun q =>
      ⟨retarget (d.newNumber start keep) (d.transitions q), d.accept? q⟩).toArray⟩ := rfl

theorem mem_targets (h : d.WellFormed) (hnext : d.next? q c = some q') : q' ∈ d.targets q := by
  obtain ⟨t, ht, -, -, rfl⟩ := (next?_eq_some (h.ordered q)).1 hnext
  exact List.mem_map_of_mem ht

theorem encloses_targets (h : d.WellFormed) {start : Nat} (hstart : start < d.size)
    (keep : Nat → Bool) :
    Encloses (fun q => (d.targets q).filter keep) [start] (Finset.range d.size) := by
  refine ⟨by simpa using hstart, fun q _ p hp => ?_⟩
  obtain ⟨t, ht, rfl⟩ := List.mem_map.1 (List.mem_of_mem_filter hp)
  exact Finset.mem_range.2 (h.inRange q t ht)

section

variable (h : d.WellFormed) {start : Nat} (hstart : start < d.size) {keep : Nat → Bool}

include h

theorem wellFormed_renumber : (d.renumber start keep).WellFormed := by
  rw [renumber_eq]
  refine ⟨fun i => ?_, fun i t ht => ?_⟩
  · rw [transitions_map]
    cases (d.order start keep)[i]? with
    | none => exact .nil
    | some q => exact (h.ordered q).retarget _
  · rw [transitions_map] at ht
    cases hi : (d.order start keep)[i]? with
    | none => simp [hi] at ht
    | some q =>
      rw [hi, Option.map_some, Option.getD_some] at ht
      have hordered := (h.ordered q).retarget (d.newNumber start keep)
      have hleads : Leads (retarget (d.newNumber start keep) (d.transitions q)) t.lo t.target :=
        ⟨t, ht, Nat.le_refl _, hordered.nonempty t ht, rfl⟩
      obtain ⟨p, -, hp⟩ := (leads_retarget (h.ordered q)).1 hleads
      rw [newNumber] at hp
      split at hp
      · have hlt := (List.findIdx?_eq_some_iff_getElem.1 hp).1
        simpa [size] using hlt
      · cases hp

include hstart

theorem mem_order : q ∈ d.order start keep ↔
    Reaches (fun q => (d.targets q).filter keep) [start] q :=
  mem_reachable (encloses_targets h hstart keep) (by rw [Finset.card_range])

theorem lt_of_mem_order (hq : q ∈ d.order start keep) : q < d.size :=
  Finset.mem_range.1 ((encloses_targets h hstart keep).mem ((mem_order h hstart).1 hq))

theorem exists_newNumber (hq : q ∈ d.order start keep) (hnext : d.next? q c = some q')
    (hkeep : keep q' = true) :
    ∃ j, d.newNumber start keep q' = some j ∧ (d.order start keep)[j]? = some q' := by
  have hmem : q' ∈ d.order start keep := by
    rw [mem_order h hstart] at hq ⊢
    exact hq.step (List.mem_filter.2 ⟨mem_targets h hnext, hkeep⟩)
  obtain ⟨j, hj⟩ := Option.isSome_iff_exists.1 (List.isSome_idxOf?.2 hmem)
  obtain ⟨hlt, heq, -⟩ := List.findIdx?_eq_some_iff_getElem.1 hj
  refine ⟨j, by rw [newNumber, if_pos hkeep, hj], ?_⟩
  rw [List.getElem?_eq_getElem hlt, beq_iff_eq.1 heq]

theorem verdict_renumber (hdead : ∀ q, keep q = false → ∀ cs, d.verdict q cs = none) {i : Nat}
    (hi : (d.order start keep)[i]? = some q) (cs : List Nat) :
    (d.renumber start keep).verdict i cs = d.verdict q cs := by
  induction cs generalizing i q with
  | nil => simp only [verdict, renumber_eq, accept?_map, hi, Option.bind_some]
  | cons c cs ih =>
    have htransitions : (d.renumber start keep).transitions i =
        retarget (d.newNumber start keep) (d.transitions q) := by
      rw [renumber_eq, transitions_map, hi]
      rfl
    rw [verdict, verdict, next?_retarget (h.ordered q) htransitions]
    cases hnext : d.next? q c with
    | none => rfl
    | some q' =>
      rw [Option.bind_some, Option.bind_some]
      cases hkeep : keep q' with
      | false => simp [newNumber, hkeep, hdead q' hkeep]
      | true =>
        obtain ⟨j, hj, hq'⟩ := exists_newNumber h hstart (List.mem_of_getElem? hi) hnext hkeep
        rw [hj, Option.bind_some, ih hq']

theorem verdict_renumber_start (hdead : ∀ q, keep q = false → ∀ cs, d.verdict q cs = none)
    (cs : List Nat) :
    (d.renumber start keep).verdict 0 cs = d.verdict start cs :=
  verdict_renumber h hstart hdead (getElem?_reachable_zero _ _ _) cs

end

theorem mem_predecessors {p : Nat} : p ∈ d.predecessors q ↔ p < d.size ∧ q ∈ d.targets p := by
  simp [predecessors]

theorem mem_live : q ∈ d.live ↔
    Reaches d.predecessors ((List.range d.size).filter fun q => (d.accept? q).isSome) q := by
  have hencloses :
      Encloses d.predecessors ((List.range d.size).filter fun q => (d.accept? q).isSome)
      (Finset.range d.size) := by
    refine ⟨fun r hr => ?_, fun a _ b hb => Finset.mem_range.2 (mem_predecessors.1 hb).1⟩
    exact Finset.mem_range.2 (List.mem_range.1 (List.mem_of_mem_filter hr))
  exact mem_reachable hencloses (by rw [Finset.card_range])

theorem mem_live_of_verdict (h : d.WellFormed) {cs : List Nat} {kind : Nat}
    (hverdict : d.verdict q cs = some kind) : q ∈ d.live := by
  induction cs generalizing q with
  | nil =>
    have haccept : (d.accept? q).isSome := Option.isSome_iff_exists.2 ⟨kind, hverdict⟩
    refine mem_live.2 ⟨q, List.mem_filter.2 ⟨List.mem_range.2 (accept?_lt hverdict), haccept⟩,
      .refl⟩
  | cons c cs ih =>
    obtain ⟨p, hnext, hrest⟩ := Option.bind_eq_some_iff.1 hverdict
    have hlt : q < d.size := by
      by_contra hge
      obtain ⟨t, ht, -⟩ := (next?_eq_some (h.ordered q)).1 hnext
      rw [transitions_of_size_le (Nat.le_of_not_lt hge)] at ht
      cases ht
    exact mem_live.2 ((mem_live.1 (ih hrest)).step (mem_predecessors.2 ⟨hlt, mem_targets h hnext⟩))

theorem verdict_of_not_live (h : d.WellFormed) (hdead : d.live.contains q = false) (cs : List Nat) :
    d.verdict q cs = none := by
  cases hverdict : d.verdict q cs with
  | none => rfl
  | some kind =>
    have hlive := List.contains_iff_mem.2 (mem_live_of_verdict h hverdict)
    rw [hlive] at hdead
    cases hdead

theorem wellFormed_prune (h : d.WellFormed) : d.prune.WellFormed := wellFormed_renumber h

theorem verdict_prune (h : d.WellFormed) (hsize : 0 < d.size) (cs : List Nat) :
    d.prune.verdict 0 cs = d.verdict 0 cs :=
  verdict_renumber_start h hsize (fun _ => verdict_of_not_live h) cs

theorem size_prune_pos (d : Dfa) : 0 < d.prune.size := by
  have hstart : (d.order 0 d.live.contains)[0]? = some 0 := getElem?_reachable_zero _ _ _
  have hlt := (List.getElem?_eq_some_iff.1 hstart).1
  rw [prune, renumber_eq]
  simpa [size] using hlt

end PredictiveParsing.Dfa
