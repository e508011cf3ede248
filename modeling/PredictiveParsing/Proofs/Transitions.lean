import PredictiveParsing.Automaton.Dfa
import Mathlib.Data.List.Basic

/-!
# Runs of deterministic automata

Transitions in order lead from a code point to one target at most, and joining neighbours or
renaming targets changes nothing else. What an automaton says of a text is its verdict: the kind
accepted in the state that the text leads to. A longest match is the last verdict on the beginnings
of a text.
-/
namespace PredictiveParsing.Dfa

variable {ts : List Transition} {c q q' : Nat}

structure Ordered (ts : List Transition) : Prop where
  apart : ts.Pairwise fun t u => t.hi < u.lo
  nonempty : ∀ t ∈ ts, t.lo ≤ t.hi

def Leads (ts : List Transition) (c q : Nat) : Prop := ∃ t ∈ ts, t.lo ≤ c ∧ c ≤ t.hi ∧ t.target = q

theorem Ordered.nil : Ordered [] := ⟨.nil, by simp⟩

theorem Ordered.of_cons {t : Transition} (h : Ordered (t :: ts)) : Ordered ts :=
  ⟨h.apart.of_cons, fun u hu => h.nonempty u (List.mem_cons_of_mem _ hu)⟩

theorem leads_cons {t : Transition} :
    Leads (t :: ts) c q ↔ (t.lo ≤ c ∧ c ≤ t.hi ∧ t.target = q) ∨ Leads ts c q :=
  List.exists_mem_cons_iff ..

theorem not_leads_nil : ¬ Leads [] c q := by simp [Leads]

theorem Ordered.leads_unique (h : Ordered ts) (hq : Leads ts c q) (hq' : Leads ts c q') :
    q = q' := by
  induction ts with
  | nil => exact absurd hq not_leads_nil
  | cons t ts ih =>
    obtain ⟨hapart, -⟩ := List.pairwise_cons.1 h.apart
    have hlater {p : Nat} (hp : Leads ts c p) : t.hi < c := by
      obtain ⟨u, hu, hlo, -⟩ := hp
      have := hapart u hu
      omega
    rcases leads_cons.1 hq with ⟨-, hhi, rfl⟩ | hq
    · rcases leads_cons.1 hq' with ⟨-, -, rfl⟩ | hq'
      · rfl
      · have := hlater hq'
        omega
    · rcases leads_cons.1 hq' with ⟨-, hhi, rfl⟩ | hq'
      · have := hlater hq
        omega
      · exact ih h.of_cons hq hq'

theorem next?_eq_some {d : Dfa} (h : Ordered (d.transitions q)) :
    d.next? q c = some q' ↔ Leads (d.transitions q) c q' := by
  generalize hts : d.transitions q = ts at h
  have hbelow : ts.Pairwise fun t u => decide (u.hi < c) = true → decide (t.hi < c) = true := by
    refine h.apart.imp_of_mem fun {t u} _ hu hlt hhi => ?_
    have hle := h.nonempty u hu
    simp only [decide_eq_true_eq] at hhi ⊢
    omega
  rw [next?, hts]
  constructor
  · intro hnext
    cases hfound : ts[bisect (fun t => decide (t.hi < c)) ts]? with
    | none => simp [hfound] at hnext
    | some t =>
      have hhi := (bisect_le_iff hbelow hfound).1 (Nat.le_refl _)
      rw [decide_eq_false_iff_not] at hhi
      by_cases hlo : t.lo ≤ c
      · simp only [hfound, if_pos hlo, Option.some.injEq] at hnext
        exact ⟨t, List.mem_of_getElem? hfound, hlo, Nat.le_of_not_lt hhi, hnext⟩
      · simp [hfound, hlo] at hnext
  · rintro ⟨t, ht, hlo, hhi, rfl⟩
    obtain ⟨i, hi, hti⟩ := List.mem_iff_getElem.1 ht
    have hfound : ts[i]? = some t := by rw [List.getElem?_eq_getElem hi, hti]
    have hle : bisect (fun t => decide (t.hi < c)) ts ≤ i := by
      rw [bisect_le_iff hbelow hfound, decide_eq_false_iff_not]
      omega
    have heq : bisect (fun t => decide (t.hi < c)) ts = i := by
      refine Nat.le_antisymm hle (Nat.le_of_not_lt fun hlt => ?_)
      have hbound := Nat.lt_trans hlt hi
      have hearlier := (bisect_le_iff hbelow (List.getElem?_eq_getElem hbound)).1 (Nat.le_refl _)
      have hapart := List.pairwise_iff_getElem.1 h.apart _ _ hbound hi hlt
      rw [decide_eq_false_iff_not] at hearlier
      rw [hti] at hapart
      omega
    simp [heq, hfound, hlo]

def Above (b : Nat) (ts : List Transition) : Prop := ∀ t ∈ ts, b < t.lo

theorem above_consMerged {b : Nat} {t : Transition} (ht : b < t.lo) (hts : Above b ts) :
    Above b (consMerged t ts) := by
  cases ts with
  | nil => exact List.forall_mem_cons.2 ⟨ht, hts⟩
  | cons u us =>
    rw [consMerged]
    split
    · exact List.forall_mem_cons.2 ⟨ht, fun x hx => hts x (List.mem_cons_of_mem _ hx)⟩
    · exact List.forall_mem_cons.2 ⟨ht, hts⟩

theorem Ordered.consMerged {t : Transition} (h : Ordered ts) (ht : t.lo ≤ t.hi)
    (habove : Above t.hi ts) :
    Ordered (consMerged t ts) := by
  have hcons : Ordered (t :: ts) :=
    ⟨List.pairwise_cons.2 ⟨habove, h.apart⟩, List.forall_mem_cons.2 ⟨ht, h.nonempty⟩⟩
  cases ts with
  | nil => exact hcons
  | cons u us =>
    rw [Dfa.consMerged]
    split
    · next hjoin =>
      have hu := h.nonempty u List.mem_cons_self
      have htu := habove u List.mem_cons_self
      refine ⟨List.pairwise_cons.2 ⟨(List.pairwise_cons.1 h.apart).1, h.of_cons.apart⟩,
        List.forall_mem_cons.2 ⟨?_, h.of_cons.nonempty⟩⟩
      simp only
      omega
    · exact hcons

theorem leads_consMerged {t : Transition} (h : Ordered ts) (ht : t.lo ≤ t.hi) :
    Leads (consMerged t ts) c q ↔ Leads (t :: ts) c q := by
  cases ts with
  | nil => rfl
  | cons u us =>
    rw [consMerged]
    split
    · next hjoin =>
      have hu := h.nonempty u List.mem_cons_self
      rw [leads_cons, leads_cons, leads_cons, ← or_assoc]
      refine or_congr_left ?_
      simp only [hjoin.1]
      omega
    · rfl

theorem merged_cons (t : Transition) (ts : List Transition) :
    merged (t :: ts) = consMerged t (merged ts) := rfl

theorem above_merged {b : Nat} (h : Above b ts) : Above b (merged ts) := by
  induction ts with
  | nil => exact h
  | cons t ts ih =>
    rw [merged_cons]
    exact above_consMerged (h t List.mem_cons_self) (ih fun u hu => h u (List.mem_cons_of_mem _ hu))

theorem Ordered.merged (h : Ordered ts) : Ordered (merged ts) := by
  induction ts with
  | nil => exact h
  | cons t ts ih =>
    rw [merged_cons]
    exact (ih h.of_cons).consMerged (h.nonempty t List.mem_cons_self)
      (above_merged (List.pairwise_cons.1 h.apart).1)

theorem leads_merged (h : Ordered ts) : Leads (merged ts) c q ↔ Leads ts c q := by
  induction ts with
  | nil => rfl
  | cons t ts ih =>
    rw [merged_cons,
      leads_consMerged h.of_cons.merged (h.nonempty t List.mem_cons_self), leads_cons,
      leads_cons, ih h.of_cons]

theorem Ordered.renamed (h : Ordered ts) (rename : Nat → Option Nat) :
    Ordered (ts.filterMap fun t => (rename t.target).map fun target =>
      { t with target := target }) := by
  refine ⟨h.apart.filterMap _ fun t u htu t' ht' u' hu' => ?_, fun t' ht' => ?_⟩
  · obtain ⟨p, -, rfl⟩ := Option.map_eq_some_iff.1 ht'
    obtain ⟨r, -, rfl⟩ := Option.map_eq_some_iff.1 hu'
    exact htu
  · obtain ⟨t, ht, heq⟩ := List.mem_filterMap.1 ht'
    obtain ⟨p, -, rfl⟩ := Option.map_eq_some_iff.1 heq
    exact h.nonempty t ht

theorem Ordered.retarget (h : Ordered ts) (rename : Nat → Option Nat) :
    Ordered (retarget rename ts) :=
  (h.renamed rename).merged

theorem leads_retarget (h : Ordered ts) {rename : Nat → Option Nat} :
    Leads (retarget rename ts) c q' ↔ ∃ q, Leads ts c q ∧ rename q = some q' := by
  rw [Dfa.retarget, leads_merged (h.renamed rename)]
  constructor
  · rintro ⟨t', ht', hlo, hhi, rfl⟩
    obtain ⟨t, ht, heq⟩ := List.mem_filterMap.1 ht'
    obtain ⟨p, hp, rfl⟩ := Option.map_eq_some_iff.1 heq
    exact ⟨t.target, ⟨t, ht, hlo, hhi, rfl⟩, hp⟩
  · rintro ⟨_, ⟨t, ht, hlo, hhi, rfl⟩, hrename⟩
    exact ⟨{ t with target := q' }, List.mem_filterMap.2 ⟨t, ht, by simp [hrename]⟩, hlo, hhi, rfl⟩

structure WellFormed (d : Dfa) : Prop where
  ordered : ∀ q, Ordered (d.transitions q)
  inRange : ∀ q, ∀ t ∈ d.transitions q, t.target < d.size

theorem WellFormed.next?_lt {d : Dfa} (h : d.WellFormed) (hnext : d.next? q c = some q') :
    q' < d.size := by
  obtain ⟨t, ht, -, -, rfl⟩ := (next?_eq_some (h.ordered q)).1 hnext
  exact h.inRange q t ht

theorem transitions_of_size_le {d : Dfa} (h : d.size ≤ q) : d.transitions q = [] := by
  rw [transitions, Array.getElem?_eq_none h]
  rfl

theorem accept?_lt {d : Dfa} {kind : Nat} (h : d.accept? q = some kind) : q < d.size := by
  obtain ⟨s, hs, -⟩ := Option.bind_eq_some_iff.1 h
  exact (Array.getElem?_eq_some_iff.1 hs).1

theorem transitions_map {α : Type} {f : α → State} {l : List α} {i : Nat} :
    (Dfa.mk (l.map f).toArray).transitions i = (l[i]?.map fun q => (f q).transitions).getD [] := by
  simp [transitions, Function.comp_def]

theorem accept?_map {α : Type} {f : α → State} {l : List α} {i : Nat} :
    (Dfa.mk (l.map f).toArray).accept? i = l[i]?.bind fun q => (f q).accept := by
  rw [accept?, List.getElem?_toArray, List.getElem?_map]
  cases l[i]? <;> rfl

def verdict (d : Dfa) : (q : Nat) → List Nat → Option Nat
  | q, [] => d.accept? q
  | q, c :: cs => (d.next? q c).bind fun q' => d.verdict q' cs

/-- `r` is the last of the verdicts on the beginnings of up to `n` characters that is one. -/
def Longest (verdict : Nat → Option Nat) (n : Nat) (r : Option (Nat × Nat)) : Prop :=
  match r with
  | some (m, kind) => m ≤ n ∧ verdict m = some kind ∧ ∀ j, m < j → j ≤ n → verdict j = none
  | none => ∀ j ≤ n, verdict j = none

theorem Longest.unique {v : Nat → Option Nat} {n : Nat} {r r' : Option (Nat × Nat)}
    (h : Longest v n r)
    (h' : Longest v n r') : r = r' := by
  match r, r', h, h' with
  | none, none, _, _ => rfl
  | none, some (m, kind), h, ⟨hm, hkind, _⟩ => simp [h m hm] at hkind
  | some (m, kind), none, ⟨hm, hkind, _⟩, h => simp [h m hm] at hkind
  | some (m, kind), some (m', kind'), ⟨hm, hkind, hlater⟩, ⟨hm', hkind', hlater'⟩ =>
    have hle : ¬ m < m' := fun hlt => by simp [hlater m' hlt hm'] at hkind'
    have hge : ¬ m' < m := fun hlt => by simp [hlater' m hlt hm] at hkind
    obtain rfl : m = m' := by omega
    rw [hkind] at hkind'
    rw [Option.some.inj hkind']

theorem Longest.extend {v : Nat → Option Nat} {m n : Nat} {r : Option (Nat × Nat)}
    (h : Longest v m r)
    (hle : m ≤ n) (hv : ∀ j, m < j → j ≤ n → v j = none) : Longest v n r := by
  match r, h with
  | some (l, kind), ⟨hl, hkind, hlater⟩ =>
    refine ⟨Nat.le_trans hl hle, hkind, fun j hlt hj => ?_⟩
    by_cases hjm : j ≤ m
    · exact hlater j hlt hjm
    · exact hv j (Nat.lt_of_not_le hjm) hj
  | none, h =>
    intro j hj
    by_cases hjm : j ≤ m
    · exact h j hjm
    · exact hv j (Nat.lt_of_not_le hjm) hj

theorem longest_zero (v : Nat → Option Nat) : Longest v 0 ((v 0).map (0, ·)) := by
  cases hv : v 0 with
  | none =>
    intro j hj
    rwa [Nat.le_zero.1 hj]
  | some kind => exact ⟨Nat.le_refl 0, hv, fun j hlt hj => by omega⟩

theorem Longest.record {v : Nat → Option Nat} {n : Nat} {best : Option (Nat × Nat)}
    (h : Longest v n best) {accept : Option Nat} :
    v (n + 1) = accept →
      Longest v (n + 1) (match accept with
        | some kind => some (n + 1, kind)
        | none => best) := by
  intro hv
  cases accept with
  | none =>
    refine h.extend (Nat.le_succ _) fun j hlt hj => ?_
    obtain rfl : j = n + 1 := by omega
    exact hv
  | some kind => exact ⟨Nat.le_refl _, hv, fun j hlt hj => by omega⟩

theorem longest_longestFrom {d : Dfa} {v : Nat → Option Nat} {read : Nat}
    {best : Option (Nat × Nat)}
    {cs : List Nat} (hv : ∀ j ≤ cs.length, v (read + j) = d.verdict q (cs.take j))
    (hbest : Longest v read best) :
    Longest v (read + cs.length) (d.longestFrom read best q cs) := by
  induction cs generalizing q read best with
  | nil => exact hbest
  | cons c cs ih =>
    rw [longestFrom]
    cases hnext : d.next? q c with
    | none =>
      refine hbest.extend (Nat.le_add_right _ _) fun j hlt hj => ?_
      obtain ⟨i, rfl⟩ : ∃ i, j = read + (i + 1) := ⟨j - read - 1, by omega⟩
      rw [hv (i + 1) (by omega), List.take_succ_cons, verdict, hnext]
      rfl
    | some q' =>
      have hrest : ∀ j ≤ cs.length, v (read + 1 + j) = d.verdict q' (cs.take j) := by
        intro j hj
        rw [Nat.add_assoc, Nat.add_comm 1 j, hv (j + 1) (Nat.succ_le_succ hj), List.take_succ_cons,
          verdict, hnext]
        rfl
      have hnow : v (read + 1) = d.accept? q' := hrest 0 (Nat.zero_le _)
      have hlen : read + (c :: cs).length = read + 1 + cs.length := by
        rw [List.length_cons]
        omega
      rw [hlen]
      exact ih hrest (hbest.record hnow)

theorem longest_longestMatch (d : Dfa) (cs : List Nat) :
    Longest (fun n => d.verdict 0 (cs.take n)) cs.length (d.longestMatch cs) := by
  have hstart : Longest (fun n => d.verdict 0 (cs.take n)) 0 ((d.accept? 0).map (0, ·)) :=
    longest_zero _
  have hverdict : ∀ j ≤ cs.length, d.verdict 0 (cs.take (0 + j)) = d.verdict 0 (cs.take j) :=
    fun j _ => by rw [Nat.zero_add]
  have hlongest := longest_longestFrom hverdict hstart
  rwa [Nat.zero_add] at hlongest

end PredictiveParsing.Dfa
