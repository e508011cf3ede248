import Mathlib.Data.Finset.Card
import PredictiveParsing.Proofs.JoinedTransitions
import PredictiveParsing.Proofs.Pruning

/-!
# Canonical tables

A table is canonical if its transitions are joined and lead to live states only, no two of its
states say the same of all texts, and its states are numbered as a breadth-first exploration finds
them. An automaton that says of all texts what a canonical table says has a state for each state of
the table, so it is not smaller; and a canonical table that says the same is equal. Main statements:
`Canonical.size_le` and `Canonical.ext`.
-/
namespace PredictiveParsing

structure Recognizer (σ : Type) where
  start : σ
  next? : σ → Nat → Option σ
  accept? : σ → Option Nat

namespace Recognizer

variable {σ τ : Type} {r : Recognizer σ} {r' : Recognizer τ} {s s₁ s₂ : σ} {t : τ} {c : Nat}

def verdict (r : Recognizer σ) : σ → List Nat → Option Nat
  | s, [] => r.accept? s
  | s, c :: cs => (r.next? s c).bind fun s' => r.verdict s' cs

def Live (r : Recognizer σ) (s : σ) : Prop := ∃ cs, (r.verdict s cs).isSome

def Alike (r : Recognizer σ) (s : σ) (r' : Recognizer τ) (t : τ) : Prop :=
  ∀ cs, r.verdict s cs = r'.verdict t cs

theorem verdict_of_next? (h : r.next? s₁ c = some s₂) (cs : List Nat) :
    r.verdict s₁ (c :: cs) = r.verdict s₂ cs := by
  rw [verdict, h, Option.bind_some]

theorem Alike.symm (h : Alike r s r' t) : Alike r' t r s := fun cs => (h cs).symm

theorem Alike.trans {υ : Type} {r'' : Recognizer υ} {u : υ} (h : Alike r s r' t)
    (h' : Alike r' t r'' u) : Alike r s r'' u := fun cs => (h cs).trans (h' cs)

theorem Alike.next (h : Alike r s₁ r' t) (hnext : r.next? s₁ c = some s₂) (hlive : r.Live s₂) :
    ∃ t', r'.next? t c = some t' ∧ Alike r s₂ r' t' := by
  obtain ⟨cs, hcs⟩ := hlive
  have hsome : (r'.verdict t (c :: cs)).isSome := by
    rwa [← h, verdict_of_next? hnext]
  cases hnext' : r'.next? t c with
  | none =>
    rw [verdict, hnext'] at hsome
    cases hsome
  | some t' =>
    refine ⟨t', rfl, fun cs => ?_⟩
    rw [← verdict_of_next? hnext, ← verdict_of_next? hnext', h]

structure Confined (r : Recognizer σ) (states : Finset σ) : Prop where
  start : r.start ∈ states
  next? : ∀ s ∈ states, ∀ c s', r.next? s c = some s' → s' ∈ states

end Recognizer

namespace Dfa

open Exploration Recognizer

variable {d d' : Dfa} {p q : Nat}

def recognizer (d : Dfa) : Recognizer Nat := ⟨0, d.next?, d.accept?⟩

@[simp] theorem verdict_recognizer (d : Dfa) (q : Nat) (cs : List Nat) :
    d.recognizer.verdict q cs = d.verdict q cs := by
  induction cs generalizing q with
  | nil => rfl
  | cons c cs ih =>
    rw [Recognizer.verdict, verdict]
    exact Option.bind_congr fun q' _ => ih q'

def Trim (d : Dfa) : Prop := ∀ q, ∀ t ∈ d.transitions q, d.recognizer.Live t.target

def Reduced (d : Dfa) : Prop :=
  ∀ p < d.size, ∀ q < d.size, Alike d.recognizer p d.recognizer q → p = q

structure Canonical (d : Dfa) : Prop where
  wellFormed : d.WellFormed
  nonempty : 0 < d.size
  joined : ∀ q, Joined (d.transitions q)
  trim : d.Trim
  reduced : d.Reduced
  order : d.order 0 (fun _ => true) = List.range d.size

theorem order_all (d : Dfa) (start : Nat) :
    d.order start (fun _ => true) = reachable d.targets d.size [start] := by
  simp [Dfa.order]

theorem WellFormed.next?_lo (h : d.WellFormed) {t : Transition} (ht : t ∈ d.transitions q) :
    d.next? q t.lo = some t.target :=
  (next?_eq_some (h.ordered q)).2 ⟨t, ht, Nat.le_refl _, (h.ordered q).nonempty t ht, rfl⟩

theorem WellFormed.targets_lt (h : d.WellFormed) (q : Nat) : ∀ p ∈ d.targets q, p < d.size :=
  List.forall_mem_map.2 (h.inRange q)

theorem WellFormed.reachable_relabel (h : d.WellFormed) {φ : Nat → Nat} {start fuel : Nat}
    (hstart : start < d.size) (hφ : Set.InjOn φ {q | q < d.size})
    (htransitions : ∀ q < d.size, d'.transitions (φ q) = relabel φ (d.transitions q)) :
    reachable d'.targets fuel [φ start] = (reachable d.targets fuel [start]).map φ := by
  have hroots : ∀ q ∈ [start], q ∈ {q | q < d.size} := by simpa using hstart
  refine reachable_map hφ (fun q _ => h.targets_lt q) (fun q hq => ?_) hroots
  rw [targets, htransitions q hq, targets_relabel]
  rfl

theorem Trim.live (h : d.Trim) (hwf : d.WellFormed) {c q' : Nat} (hnext : d.next? q c = some q') :
    d.recognizer.Live q' := by
  obtain ⟨t, ht, -, -, rfl⟩ := (next?_eq_some (hwf.ordered q)).1 hnext
  exact h q t ht

section

variable {σ : Type} {r : Recognizer σ} {states : Finset σ}

/-- Each state of a canonical table has one like it in every automaton that says the same. -/
theorem Canonical.exists_alike (h : d.Canonical) (hr : r.Confined states)
    (heq : Alike d.recognizer 0 r r.start) (hq : q < d.size) :
    ∃ s ∈ states, Alike d.recognizer q r s := by
  have hmem : q ∈ d.order 0 (fun _ => true) := h.order ▸ List.mem_range.2 hq
  obtain ⟨start, hstart, hpath⟩ := (mem_order h.wellFormed h.nonempty).1 hmem
  obtain rfl := List.mem_singleton.1 hstart
  clear hq hmem
  induction hpath with
  | refl => exact ⟨r.start, hr.start, heq⟩
  | @tail p q _ hstep ih =>
    obtain ⟨s, hs, hlike⟩ := ih
    obtain ⟨t, ht, rfl⟩ := List.mem_map.1 (List.mem_of_mem_filter hstep)
    obtain ⟨s', hs', hlike'⟩ := hlike.next (h.wellFormed.next?_lo ht) (h.trim p t ht)
    exact ⟨s', hr.next? s hs t.lo s' hs', hlike'⟩

theorem Canonical.size_le (h : d.Canonical) (hr : r.Confined states)
    (heq : Alike d.recognizer 0 r r.start) : d.size ≤ states.card := by
  have : Nonempty σ := ⟨r.start⟩
  have hstate (q : Nat) (hq : q ∈ Finset.range d.size) :
      ∃ s, s ∈ states ∧ Alike d.recognizer q r s :=
    h.exists_alike hr heq (Finset.mem_range.1 hq)
  choose! state hmem hlike using hstate
  rw [← Finset.card_range d.size]
  refine Finset.card_le_card_of_injOn state hmem fun p hp q hq hsame => ?_
  refine h.reduced p (Finset.mem_range.1 hp) q (Finset.mem_range.1 hq) ?_
  have hlike' := hlike p hp
  rw [hsame] at hlike'
  exact hlike'.trans (hlike q hq).symm

end

theorem WellFormed.confined (h : d.WellFormed) (hsize : 0 < d.size) :
    d.recognizer.Confined (Finset.range d.size) :=
  ⟨Finset.mem_range.2 hsize, fun _ _ _ _ hnext => Finset.mem_range.2 (h.next?_lt hnext)⟩

section

variable {φ : Nat → Nat} (h : d.Canonical) (h' : d'.Canonical)
  (hφ : ∀ q < d.size, φ q < d'.size ∧ Alike d.recognizer q d'.recognizer (φ q))

include h h' hφ

theorem Canonical.leads_counterpart (hq : q < d.size) {c p' : Nat} :
    Leads (d'.transitions (φ q)) c p' ↔ ∃ q', Leads (d.transitions q) c q' ∧ φ q' = p' := by
  have hordered := h.wellFormed.ordered q
  have hordered' := h'.wellFormed.ordered (φ q)
  constructor
  · intro hleads
    have hnext := (next?_eq_some hordered').2 hleads
    obtain ⟨q', hnext', hlike⟩ :=
      (hφ q hq).2.symm.next hnext (h'.trim.live h'.wellFormed hnext)
    have hq' := h.wellFormed.next?_lt hnext'
    refine ⟨q', (next?_eq_some hordered).1 hnext', ?_⟩
    exact h'.reduced _ (hφ q' hq').1 p' (h'.wellFormed.next?_lt hnext)
      ((hφ q' hq').2.symm.trans hlike.symm)
  · rintro ⟨q', hleads, rfl⟩
    have hnext := (next?_eq_some hordered).2 hleads
    have hq' := h.wellFormed.next?_lt hnext
    obtain ⟨p', hnext', hlike⟩ := (hφ q hq).2.next hnext (h.trim.live h.wellFormed hnext)
    have heq : φ q' = p' := h'.reduced _ (hφ q' hq').1 p' (h'.wellFormed.next?_lt hnext')
      ((hφ q' hq').2.symm.trans hlike)
    exact heq ▸ (next?_eq_some hordered').1 hnext'

omit h' in
theorem Canonical.injOn_counterpart : Set.InjOn φ {q | q < d.size} := by
  intro p hp q hq heq
  have hlike := (hφ p hp).2
  rw [heq] at hlike
  exact h.reduced p hp q hq (hlike.trans (hφ q hq).2.symm)

theorem Canonical.transitions_counterpart (hq : q < d.size) :
    d'.transitions (φ q) = relabel φ (d.transitions q) := by
  have hinRange : ∀ t ∈ d.transitions q, t.target ∈ {q | q < d.size} := h.wellFormed.inRange q
  refine Joined.ext (h'.wellFormed.ordered _) (h'.joined _)
    ((h.wellFormed.ordered q).relabel φ)
    ((h.joined q).relabel hinRange (injOn_counterpart h hφ)) fun c p' => ?_
  rw [leads_relabel, leads_counterpart h h' hφ hq]

theorem Canonical.order_counterpart (hsize : d.size = d'.size) :
    d'.order (φ 0) (fun _ => true) = (d.order 0 (fun _ => true)).map φ := by
  rw [order_all, order_all, ← hsize]
  exact h.wellFormed.reachable_relabel h.nonempty (injOn_counterpart h hφ)
    fun q => transitions_counterpart h h' hφ

end

theorem ext_states (hsize : d.size = d'.size)
    (htransitions : ∀ q < d.size, d.transitions q = d'.transitions q)
    (haccept : ∀ q < d.size, d.accept? q = d'.accept? q) : d = d' := by
  obtain ⟨states⟩ := d
  obtain ⟨states'⟩ := d'
  refine congrArg Dfa.mk (Array.ext hsize fun q hq hq' => ?_)
  have htransitions := htransitions q hq
  have haccept := haccept q hq
  simp only [transitions, accept?, Array.getElem?_eq_getElem hq, Array.getElem?_eq_getElem hq',
    Option.map_some, Option.getD_some, Option.bind_some] at htransitions haccept
  generalize states[q] = s, states'[q] = s' at htransitions haccept
  cases s
  cases s'
  simp_all

theorem Canonical.ext (h : d.Canonical) (h' : d'.Canonical)
    (heq : Alike d.recognizer 0 d'.recognizer 0) : d = d' := by
  have hconfined := h.wellFormed.confined h.nonempty
  have hconfined' := h'.wellFormed.confined h'.nonempty
  have hsize : d.size = d'.size := by
    have hle := h.size_le hconfined' heq
    have hge := h'.size_le hconfined heq.symm
    rw [Finset.card_range] at hle hge
    exact Nat.le_antisymm hle hge
  have hlike (q : Nat) (hq : q < d.size) :
      ∃ p, p < d'.size ∧ Alike d.recognizer q d'.recognizer p := by
    obtain ⟨p, hp, hlike⟩ := h.exists_alike hconfined' heq hq
    exact ⟨p, Finset.mem_range.1 hp, hlike⟩
  choose! φ hφ using hlike
  have hzero : φ 0 = 0 :=
    h'.reduced _ (hφ 0 h.nonempty).1 0 h'.nonempty ((hφ 0 h.nonempty).2.symm.trans heq)
  have horder := Canonical.order_counterpart h h' hφ hsize
  rw [hzero, h'.order, h.order, ← hsize] at horder
  -- both tables number their states from the start on, so no state has another number
  have hid (q : Nat) (hq : q < d.size) : φ q = q := by
    have hget := congrArg (·[q]?) horder
    simpa [hq, eq_comm] using hget
  refine ext_states hsize (fun q hq => ?_) fun q hq => ?_
  · have htransitions := Canonical.transitions_counterpart h h' hφ hq
    rw [hid q hq] at htransitions
    rw [htransitions, relabel]
    refine (List.map_id' _).symm.trans (List.map_congr_left fun t ht => ?_)
    rw [hid _ (h.wellFormed.inRange q t ht)]
  · have hverdict := (hφ q hq).2 []
    rwa [hid q hq] at hverdict

end Dfa
end PredictiveParsing
