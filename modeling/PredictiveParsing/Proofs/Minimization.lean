import Mathlib.Data.Fintype.EquivFin
import PredictiveParsing.Proofs.Pruning

/-!
# Minimization

Classification gives equal numbers to equal pairs and to no others. So each refinement divides the
blocks before it, and one that leaves their number as it is leaves the blocks as they are. States of
one block then accept the same and lead to the same blocks, so a state for each block will do. Main
statement: `verdict_minimize`.
-/
namespace PredictiveParsing.Dfa

namespace Numbering

variable {κ : Type} [DecidableEq κ] {seen : Numbering κ} {count block : Nat} {key : κ}

structure Known (seen : Numbering κ) (count : Nat) : Prop where
  lt : ∀ b k i, seen.number? b k = some i → i < count
  inj : ∀ b k b' k' i, seen.number? b k = some i → seen.number? b' k' = some i → b = b' ∧ k = k'

theorem number?_modify (h : block < seen.size) (b : Nat) (k : κ) :
    number? (seen.modify block ((key, count) :: ·)) b k =
      if b = block ∧ k = key then some count else number? seen b k := by
  rw [number?, number?, Array.getElem?_modify]
  by_cases hb : block = b
  · subst hb
    by_cases hk : k = key
    · simp [hk, h]
    · have hne : (k == key) = false := by simpa using hk
      simp [hk, h, List.lookup_cons, hne]
  · have hne : ¬ (b = block ∧ k = key) := fun hand => hb hand.1.symm
    rw [if_neg hb, if_neg hne]

theorem Known.record (h : Known seen count) (hblock : block < seen.size) :
    Known (seen.modify block ((key, count) :: ·)) (count + 1) := by
  refine ⟨fun b k i hi => ?_, fun b k b' k' i hi hi' => ?_⟩
  · rw [number?_modify hblock] at hi
    split at hi
    · obtain rfl := Option.some.inj hi
      exact Nat.lt_succ_self _
    · exact Nat.lt_succ_of_lt (h.lt b k i hi)
  · rw [number?_modify hblock] at hi hi'
    split at hi
    · next heq =>
      obtain rfl := Option.some.inj hi
      split at hi'
      · next heq' => exact ⟨heq.1.trans heq'.1.symm, heq.2.trans heq'.2.symm⟩
      · exact absurd (h.lt b' k' _ hi') (Nat.lt_irrefl _)
    · split at hi'
      · obtain rfl := Option.some.inj hi'
        exact absurd (h.lt b k _ hi) (Nat.lt_irrefl _)
      · exact h.inj b k b' k' i hi hi'

/-- What classification ends with: a numbering of all pairs that keeps the numbers given before and
leaves none out. -/
structure Classified (seen : Numbering κ) (count : Nat) (pairs : List (Nat × κ))
    (numbers : List Nat)
    (total : Nat) (last : Numbering κ) : Prop where
  known : Known last total
  kept : ∀ b k i, seen.number? b k = some i → last.number? b k = some i
  given : numbers.map some = pairs.map fun p => last.number? p.1 p.2
  used : ∀ i, count ≤ i → i < total → i ∈ numbers

theorem exists_classified (h : Known seen count) {pairs : List (Nat × κ)}
    (hpairs : ∀ p ∈ pairs, p.1 < seen.size) :
    ∃ last, Classified seen count pairs (classify seen count pairs).1
      (classify seen count pairs).2 last := by
  induction pairs generalizing seen count with
  | nil => exact ⟨seen, h, fun _ _ _ hi => hi, rfl, fun i hle hlt => absurd hlt (Nat.not_lt.2 hle)⟩
  | cons p pairs ih =>
    obtain ⟨block, key⟩ := p
    have hblock : block < seen.size := hpairs (block, key) List.mem_cons_self
    have hrest : ∀ p ∈ pairs, p.1 < seen.size := fun p hp => hpairs p (List.mem_cons_of_mem _ hp)
    rw [classify]
    cases hseen : seen.number? block key with
    | some i =>
      obtain ⟨last, hlast⟩ := ih h hrest
      refine ⟨last, hlast.known, hlast.kept, ?_,
        fun j hle hlt => List.mem_cons_of_mem _ (hlast.used j hle hlt)⟩
      simp only [List.map_cons, hlast.given, hlast.kept _ _ _ hseen]
    | none =>
      have hrecord : Known (seen.modify block ((key, count) :: ·)) (count + 1) := h.record hblock
      obtain ⟨last, hlast⟩ := ih hrecord (by simpa using hrest)
      have hnew : last.number? block key = some count :=
        hlast.kept _ _ _ (by rw [number?_modify hblock, if_pos ⟨rfl, rfl⟩])
      refine ⟨last, hlast.known, fun b k i hi => ?_, ?_, fun j hle hlt => ?_⟩
      · refine hlast.kept b k i ?_
        rw [number?_modify hblock, if_neg]
        · exact hi
        · rintro ⟨rfl, rfl⟩
          rw [hseen] at hi
          cases hi
      · simp only [List.map_cons, hlast.given, hnew]
      · by_cases heq : j = count
        · exact heq ▸ List.mem_cons_self
        · exact List.mem_cons_of_mem _ (hlast.used j (by omega) hlt)

end Numbering

structure Blocks.Covers (b : Blocks) (n : Nat) : Prop where
  lt : ∀ q < n, b.block q < b.count
  onto : ∀ i < b.count, ∃ q < n, b.block q = i

structure Blocks.Divides {κ : Type} (b : Blocks) (n : Nat) (f : Nat → κ) : Prop
    extends b.Covers n where
  same : ∀ p < n, ∀ q < n, b.block p = b.block q ↔ f p = f q

theorem Numbering.divide_divides {κ : Type} [DecidableEq κ] {size n : Nat} {f : Nat → Nat × κ}
    {pairs : List (Nat × κ)} (hpairs : ∀ p ∈ pairs, p.1 < size) (hlen : pairs.length = n)
    (hf : ∀ q < n, pairs[q]? = some (f q)) : (divide size pairs).Divides n f := by
  have hnone (b : Nat) (k : κ) : number? (Array.replicate size [] : Numbering κ) b k = none := by
    rw [number?, Array.getElem?_replicate]
    split <;> rfl
  have hknown : Known (Array.replicate size [] : Numbering κ) 0 :=
    ⟨fun b k i hi => (by simp [hnone] at hi), fun b k _ _ i hi => (by simp [hnone] at hi)⟩
  have hpairs' : ∀ p ∈ pairs, p.1 < (Array.replicate size [] : Numbering κ).size := by
    simpa using hpairs
  obtain ⟨last, hlast⟩ := exists_classified hknown hpairs'
  have hlength : (classify (Array.replicate size []) 0 pairs).1.length = n := by
    have := congrArg List.length hlast.given
    simpa [hlen] using this
  have hblock (q : Nat) (hq : q < n) :
      last.number? (f q).1 (f q).2 = some ((divide size pairs).block q) := by
    have hat := congrArg (·[q]?) hlast.given
    simp only [List.getElem?_map, hf q hq, Option.map_some] at hat
    have hget : (classify (Array.replicate size []) 0 pairs).1[q]? =
        some ((divide size pairs).block q) := by
      rw [Blocks.block, divide]
      simp [hlength, hq]
    rw [hget] at hat
    exact (Option.some.inj hat).symm
  refine ⟨⟨fun q hq => hlast.known.lt _ _ _ (hblock q hq), fun i hi => ?_⟩,
    fun p hp q hq => ⟨fun heq => ?_, fun heq => ?_⟩⟩
  · obtain ⟨q, hq, hqi⟩ := List.mem_iff_getElem.1 (hlast.used i (Nat.zero_le i) hi)
    rw [hlength] at hq
    refine ⟨q, hq, ?_⟩
    rw [Blocks.block, divide]
    simp [hlength, hq, hqi]
  · have hq' := hblock q hq
    rw [← heq] at hq'
    obtain ⟨hfst, hsnd⟩ := hlast.known.inj _ _ _ _ _ (hblock p hp) hq'
    exact Prod.ext hfst hsnd
  · have hp' := hblock p hp
    rw [heq, hblock q hq] at hp'
    exact (Option.some.inj hp').symm

variable {d : Dfa} {b b' : Blocks} {n : Nat}

theorem acceptBlocks_divides (d : Dfa) :
    d.acceptBlocks.Divides d.size fun q => (0, d.accept? q) := by
  refine Numbering.divide_divides (by simp) (by simp [size]) fun q hq => ?_
  have hstate : d.states[q]? = some d.states[q] := Array.getElem?_eq_getElem hq
  simp [accept?, hstate]

theorem refine_divides (hb : b.Covers d.size) : (d.refine b).Divides d.size fun q =>
    (b.block q, blockTransitions b (d.transitions q)) := by
  refine Numbering.divide_divides ?_ (by simp) fun q hq => ?_
  · intro p hp
    obtain ⟨q, hq, rfl⟩ := List.mem_map.1 hp
    exact hb.lt q (List.mem_range.1 hq)
  · rw [List.getElem?_map, List.getElem?_range hq]
    rfl

theorem Blocks.Covers.count_le (h : b.Covers n) : b.count ≤ n := by
  have hsurjective : Function.Surjective fun q : Fin n =>
      (⟨b.block q, h.lt q q.2⟩ : Fin b.count) := by
    intro i
    obtain ⟨q, hq, hi⟩ := h.onto i i.2
    exact ⟨⟨q, hq⟩, Fin.ext hi⟩
  simpa using Fintype.card_le_of_surjective _ hsurjective

/-- Where every block of `b'` is in one of `b`, the blocks of `b'` are no fewer; and if they are as
many, those of `b` are in turn in one of `b'`. -/
theorem count_of_finer (hb : b.Covers n) (hb' : b'.Covers n)
    (hfiner : ∀ p < n, ∀ q < n, b'.block p = b'.block q → b.block p = b.block q) :
    b.count ≤ b'.count ∧ (b'.count = b.count →
      ∀ p < n, ∀ q < n, b.block p = b.block q → b'.block p = b'.block q) := by
  choose member hmember using hb'.onto
  let outer (i : Fin b'.count) : Fin b.count :=
    ⟨b.block (member i i.2), hb.lt _ (hmember i i.2).1⟩
  have houter (q : Nat) (hq : q < n) : (outer ⟨b'.block q, hb'.lt q hq⟩).val = b.block q :=
    hfiner _ (hmember _ (hb'.lt q hq)).1 q hq (hmember _ (hb'.lt q hq)).2
  have hsurjective : Function.Surjective outer := by
    intro i
    obtain ⟨q, hq, hi⟩ := hb.onto i i.2
    exact ⟨⟨b'.block q, hb'.lt q hq⟩, Fin.ext ((houter q hq).trans hi)⟩
  refine ⟨by simpa using Fintype.card_le_of_surjective _ hsurjective,
    fun hcount p hp q hq heq => ?_⟩
  have hbijective : Function.Bijective outer :=
    (Fintype.bijective_iff_surjective_and_card outer).2 ⟨hsurjective, by simpa using hcount⟩
  have hinj := hbijective.1 (Fin.ext ((houter p hp).trans (heq.trans (houter q hq).symm)))
  exact Fin.val_eq_of_eq hinj

def AcceptsAlike (d : Dfa) (b : Blocks) : Prop :=
  ∀ p < d.size, ∀ q < d.size, b.block p = b.block q → d.accept? p = d.accept? q

def LeadsAlike (d : Dfa) (b : Blocks) : Prop :=
  ∀ p < d.size, ∀ q < d.size, b.block p = b.block q →
    ∀ c, (d.next? p c).map b.block = (d.next? q c).map b.block

theorem map_next?_eq (h : d.WellFormed) {p q c : Nat}
    (heq : blockTransitions b (d.transitions p) = blockTransitions b (d.transitions q)) :
    (d.next? p c).map b.block = (d.next? q c).map b.block := by
  apply Option.ext
  intro i
  have hleads (r : Nat) : (d.next? r c).map b.block = some i ↔
      Leads (blockTransitions b (d.transitions r)) c i := by
    rw [blockTransitions, leads_retarget (h.ordered r), Option.map_eq_some_iff]
    simp only [next?_eq_some (h.ordered r), Option.some.injEq]
  rw [hleads, hleads, heq]

theorem refineFully_alike (h : d.WellFormed) {fuel : Nat} (hb : b.Covers d.size)
    (haccepts : d.AcceptsAlike b)
    (hfuel : d.size < b.count + fuel) :
    (d.refineFully fuel b).Covers d.size ∧ d.AcceptsAlike (d.refineFully fuel b) ∧
      d.LeadsAlike (d.refineFully fuel b) := by
  induction fuel generalizing b with
  | zero =>
    have := hb.count_le
    omega
  | succ fuel ih =>
    have hnext := refine_divides hb
    have hfiner : ∀ p < d.size, ∀ q < d.size, (d.refine b).block p = (d.refine b).block q →
        b.block p = b.block q := fun p hp q hq heq =>
      congrArg Prod.fst ((hnext.same p hp q hq).1 heq)
    have haccepts' : d.AcceptsAlike (d.refine b) := fun p hp q hq heq =>
      haccepts p hp q hq (hfiner p hp q hq heq)
    obtain ⟨hle, hcoarser⟩ := count_of_finer hb hnext.toCovers hfiner
    rw [refineFully]
    by_cases hcount : (d.refine b).count = b.count
    · -- as many blocks as before are the same blocks: targets in one of `b` are in one of its own
      rw [if_pos hcount]
      refine ⟨hnext.toCovers, haccepts', fun p hp q hq heq c => ?_⟩
      have htransitions := congrArg Prod.snd ((hnext.same p hp q hq).1 heq)
      have hmap := map_next?_eq h (c := c) htransitions
      cases hp' : d.next? p c with
      | none =>
        cases hq' : d.next? q c with
        | none => rfl
        | some q' => simp [hp', hq'] at hmap
      | some p' =>
        cases hq' : d.next? q c with
        | none => simp [hp', hq'] at hmap
        | some q' =>
          simp only [hp', hq', Option.map_some, Option.some.injEq] at hmap
          exact congrArg some (hcoarser hcount p' (h.next?_lt hp') q' (h.next?_lt hq') hmap)
    · rw [if_neg hcount]
      exact ih hnext.toCovers haccepts' (by omega)

theorem exists_quotient_state (hb : b.Covers d.size) {q : Nat} (hq : q < d.size) :
    ∃ p < d.size, b.block p = b.block q ∧
      (d.quotient b).transitions (b.block q) = blockTransitions b (d.transitions p) ∧
      (d.quotient b).accept? (b.block q) = d.accept? p := by
  have hblock : (List.range b.count)[b.block q]? = some (b.block q) :=
    List.getElem?_range (hb.lt q hq)
  have hsome : ((List.range d.size).find? fun p => b.block p = b.block q).isSome :=
    List.find?_isSome.2 ⟨q, List.mem_range.2 hq, by simp⟩
  obtain ⟨p, hp⟩ := Option.isSome_iff_exists.1 hsome
  refine ⟨p, List.mem_range.1 (List.mem_of_find?_eq_some hp),
    by simpa using List.find?_some hp, ?_, ?_⟩
  · rw [quotient, transitions_map, hblock]
    simp [hp]
  · rw [quotient, accept?_map, hblock]
    simp [hp]

theorem size_quotient (d : Dfa) (b : Blocks) : (d.quotient b).size = b.count := by
  simp [quotient, size]

theorem wellFormed_quotient (h : d.WellFormed) (hb : b.Covers d.size) :
    (d.quotient b).WellFormed := by
  have hstate (i : Nat) : (d.quotient b).transitions i = [] ∨
      ∃ p, (d.quotient b).transitions i = blockTransitions b (d.transitions p) := by
    by_cases hi : i < b.count
    · obtain ⟨q, hq, rfl⟩ := hb.onto i hi
      obtain ⟨p, -, -, htransitions, -⟩ := exists_quotient_state hb hq
      exact .inr ⟨p, htransitions⟩
    · exact .inl (transitions_of_size_le (by rw [size_quotient]; omega))
  refine ⟨fun i => ?_, fun i t ht => ?_⟩
  · rcases hstate i with hnil | ⟨p, hp⟩
    · rw [hnil]
      exact .nil
    · rw [hp]
      exact (h.ordered p).retarget _
  · rcases hstate i with hnil | ⟨p, hp⟩
    · rw [hnil] at ht
      cases ht
    · rw [hp] at ht
      have hnonempty := ((h.ordered p).retarget _).nonempty t ht
      obtain ⟨q, hq, htarget⟩ :=
        (leads_retarget (h.ordered p)).1 ⟨t, ht, Nat.le_refl _, hnonempty, rfl⟩
      rw [size_quotient, ← Option.some.inj htarget]
      exact hb.lt q (h.next?_lt ((next?_eq_some (h.ordered p)).2 hq))

theorem verdict_quotient (h : d.WellFormed) (hb : b.Covers d.size) (haccepts : d.AcceptsAlike b)
    (hleads : d.LeadsAlike b) {q : Nat} (hq : q < d.size) (cs : List Nat) :
    (d.quotient b).verdict (b.block q) cs = d.verdict q cs := by
  induction cs generalizing q with
  | nil =>
    obtain ⟨p, hp, hblock, -, haccept⟩ := exists_quotient_state hb hq
    exact haccept.trans (haccepts p hp q hq hblock)
  | cons c cs ih =>
    obtain ⟨p, hp, hblock, htransitions, -⟩ := exists_quotient_state hb hq
    have hnext : (d.quotient b).next? (b.block q) c = (d.next? q c).map b.block := by
      rw [next?_retarget (h.ordered p) htransitions, ← hleads p hp q hq hblock c]
      cases d.next? p c <;> rfl
    rw [verdict, verdict, hnext]
    cases hq' : d.next? q c with
    | none => rfl
    | some q' => exact ih (h.next?_lt hq')

theorem refineFully_acceptBlocks (h : d.WellFormed) (hsize : 0 < d.size) :
    (d.refineFully d.size d.acceptBlocks).Covers d.size ∧
      d.AcceptsAlike (d.refineFully d.size d.acceptBlocks) ∧
      d.LeadsAlike (d.refineFully d.size d.acceptBlocks) := by
  have hstart := acceptBlocks_divides d
  have hcount : 0 < d.acceptBlocks.count := Nat.lt_of_le_of_lt (Nat.zero_le _) (hstart.lt 0 hsize)
  have haccepts : d.AcceptsAlike d.acceptBlocks := fun p hp q hq heq =>
    congrArg Prod.snd ((hstart.same p hp q hq).1 heq)
  exact refineFully_alike h hstart.toCovers haccepts (by omega)

theorem verdict_minimize (h : d.WellFormed) (hsize : 0 < d.size) (cs : List Nat) :
    d.minimize.verdict 0 cs = d.verdict 0 cs := by
  obtain ⟨hcovers, haccepts, hleads⟩ := refineFully_acceptBlocks h hsize
  have hblock := hcovers.lt 0 hsize
  rw [minimize, if_neg (Nat.ne_of_gt hsize)]
  rw [verdict_renumber_start (wellFormed_quotient h hcovers) (by rwa [size_quotient])
    (fun _ hkeep => by cases hkeep)]
  exact verdict_quotient h hcovers haccepts hleads hsize cs

end PredictiveParsing.Dfa
