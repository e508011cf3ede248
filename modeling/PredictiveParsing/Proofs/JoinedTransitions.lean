import Mathlib.Data.Set.Function
import PredictiveParsing.Proofs.Transitions

/-!
# Joined transitions

In a joined list of transitions no two touch that lead to the same state. Such a list is the only
one with its targets: it begins where some code point first leads anywhere, and its first transition
goes on for as long as the target stays the same. Main statement: `Joined.ext`.
-/
namespace PredictiveParsing.Dfa

variable {t u : Transition} {ts us : List Transition} {c q q' : Nat}

def Joined (ts : List Transition) : Prop :=
  ts.Pairwise fun t u => t.target = u.target → t.hi + 1 < u.lo

theorem Joined.consMerged (h : Joined ts) (hordered : Ordered ts) (habove : Above t.hi ts) :
    Joined (consMerged t ts) := by
  cases ts with
  | nil => exact List.pairwise_singleton _ _
  | cons u us =>
    obtain ⟨hu, hus⟩ := List.pairwise_cons.1 h
    have htu := habove u List.mem_cons_self
    rw [Dfa.consMerged]
    by_cases hjoin : t.target = u.target ∧ t.hi + 1 = u.lo
    · rw [if_pos hjoin]
      exact List.pairwise_cons.2 ⟨fun v hv heq => hu v hv (hjoin.1.symm.trans heq), hus⟩
    · rw [if_neg hjoin]
      refine List.pairwise_cons.2 ⟨List.forall_mem_cons.2 ⟨fun heq => ?_, fun v hv _ => ?_⟩, h⟩
      · have hne : t.hi + 1 ≠ u.lo := fun htouch => hjoin ⟨heq, htouch⟩
        omega
      · -- `u` lies between the two
        have huv := (List.pairwise_cons.1 hordered.apart).1 v hv
        have hne := hordered.nonempty u List.mem_cons_self
        omega

theorem joined_merged (h : Ordered ts) : Joined (merged ts) := by
  induction ts with
  | nil => exact .nil
  | cons t ts ih =>
    rw [merged_cons]
    exact (ih h.of_cons).consMerged h.of_cons.merged
      (above_merged (List.pairwise_cons.1 h.apart).1)

theorem joined_retarget (h : Ordered ts) (rename : Nat → Option Nat) :
    Joined (retarget rename ts) := joined_merged (h.renamed rename)

theorem leads_head (h : Ordered (t :: ts)) : Leads (t :: ts) t.lo t.target :=
  ⟨t, List.mem_cons_self, Nat.le_refl _, h.nonempty t List.mem_cons_self, rfl⟩

theorem lt_of_leads_tail (h : Ordered (t :: ts)) (hc : Leads ts c q) : t.hi < c := by
  obtain ⟨u, hu, hlo, -, -⟩ := hc
  have := (List.pairwise_cons.1 h.apart).1 u hu
  omega

theorem leads_tail_iff (h : Ordered (t :: ts)) :
    Leads ts c q ↔ Leads (t :: ts) c q ∧ t.hi < c := by
  refine ⟨fun hc => ⟨leads_cons.2 (.inr hc), lt_of_leads_tail h hc⟩, fun ⟨hc, hlt⟩ => ?_⟩
  rcases leads_cons.1 hc with ⟨-, hle, -⟩ | hc
  · omega
  · exact hc

theorem lo_le_of_leads (h : Ordered (t :: ts)) (hc : Leads (t :: ts) c q) : t.lo ≤ c := by
  rcases leads_cons.1 hc with ⟨hlo, -, -⟩ | hc
  · exact hlo
  · have hhi := lt_of_leads_tail h hc
    have hne := h.nonempty t List.mem_cons_self
    omega

theorem Joined.hi_of_leads (hjoined : Joined (t :: ts)) (hc : Leads (t :: ts) (t.hi + 1) q) :
    q ≠ t.target := by
  rintro rfl
  rcases leads_cons.1 hc with ⟨-, hle, -⟩ | ⟨u, hu, hlo, -, heq⟩
  · omega
  · have := (List.pairwise_cons.1 hjoined).1 u hu heq.symm
    omega

theorem hi_le_of_leads (hjoined : Joined (t :: ts)) (hlo : u.lo = t.lo)
    (htarget : u.target = t.target) (ht : t.lo ≤ t.hi)
    (hleads : ∀ c q, Leads (u :: us) c q → Leads (t :: ts) c q) : u.hi ≤ t.hi := by
  by_contra hlt
  have hu : Leads (u :: us) (t.hi + 1) u.target :=
    ⟨u, List.mem_cons_self, by omega, by omega, rfl⟩
  exact hjoined.hi_of_leads (hleads _ _ hu) htarget

theorem Joined.ext (hts : Ordered ts) (hjts : Joined ts) (hus : Ordered us) (hjus : Joined us)
    (h : ∀ c q, Leads ts c q ↔ Leads us c q) : ts = us := by
  induction ts generalizing us with
  | nil =>
    cases us with
    | nil => rfl
    | cons u us => exact absurd ((h _ _).2 (leads_head hus)) not_leads_nil
  | cons t ts ih =>
    cases us with
    | nil => exact absurd ((h _ _).1 (leads_head hts)) not_leads_nil
    | cons u us =>
      have ht := hts.nonempty t List.mem_cons_self
      have hu := hus.nonempty u List.mem_cons_self
      have hlo : t.lo = u.lo :=
        Nat.le_antisymm (lo_le_of_leads hts ((h _ _).2 (leads_head hus)))
          (lo_le_of_leads hus ((h _ _).1 (leads_head hts)))
      have htarget : t.target = u.target :=
        hus.leads_unique ((h _ _).1 (leads_head hts)) (hlo ▸ leads_head hus)
      have hhi : t.hi = u.hi :=
        Nat.le_antisymm
          (hi_le_of_leads hjus hlo htarget hu fun c q => (h c q).1)
          (hi_le_of_leads hjts hlo.symm htarget.symm ht fun c q => (h c q).2)
      have heq : t = u := by
        cases t
        cases u
        simp_all
      subst heq
      refine congrArg (t :: ·) (ih hts.of_cons hjts.of_cons hus.of_cons hjus.of_cons fun c q => ?_)
      rw [leads_tail_iff hts, leads_tail_iff hus, h]

def relabel (φ : Nat → Nat) (ts : List Transition) : List Transition :=
  ts.map fun t => { t with target := φ t.target }

theorem targets_relabel (φ : Nat → Nat) (ts : List Transition) :
    (relabel φ ts).map (·.target) = (ts.map (·.target)).map φ := by
  simp [relabel]

theorem Ordered.relabel (h : Ordered ts) (φ : Nat → Nat) : Ordered (relabel φ ts) :=
  ⟨List.pairwise_map.2 h.apart, List.forall_mem_map.2 h.nonempty⟩

theorem leads_relabel {φ : Nat → Nat} :
    Leads (relabel φ ts) c q' ↔ ∃ q, Leads ts c q ∧ φ q = q' := by
  constructor
  · rintro ⟨t', ht', hlo, hhi, rfl⟩
    obtain ⟨t, ht, rfl⟩ := List.mem_map.1 ht'
    exact ⟨t.target, ⟨t, ht, hlo, hhi, rfl⟩, rfl⟩
  · rintro ⟨_, ⟨t, ht, hlo, hhi, rfl⟩, rfl⟩
    exact ⟨_, List.mem_map_of_mem ht, hlo, hhi, rfl⟩

theorem Joined.relabel {φ : Nat → Nat} {states : Set Nat} (h : Joined ts)
    (hts : ∀ t ∈ ts, t.target ∈ states) (hφ : Set.InjOn φ states) : Joined (relabel φ ts) := by
  refine List.pairwise_map.2 (h.imp_of_mem fun ht hu hapart heq => ?_)
  exact hapart (hφ (hts _ ht) (hts _ hu) heq)

end PredictiveParsing.Dfa
