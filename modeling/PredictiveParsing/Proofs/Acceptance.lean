import Mathlib.Computability.Language
import PredictiveParsing.Proofs.SubsetConstruction

/-!
# Acceptance by nondeterministic automata

A text is accepted from the contents of a state in a number of steps, which allows for induction
where states lie on cycles. A state joins another by a language if what it accepts is just a text of
the language and then what the other accepts. The sets of states that a run goes through accept the
same texts. Main statement: `mem_kinds_runFrom`.
-/
namespace PredictiveParsing.Nfa

open Exploration
open scoped Computability

variable {nfa : Nfa} {kind : Nat}

/-- `Accepts nfa kind n s w`: from a state with the contents `s` the text `w` is accepted as `kind`
in `n` steps. -/
inductive Accepts (nfa : Nfa) (kind : Nat) : Nat → State → List Nat → Prop
  | here {s : State} (h : s.accept = some kind) : Accepts nfa kind 0 s []
  | silent {n t : Nat} {s : State} {w : List Nat} (ht : t ∈ s.silent)
      (h : Accepts nfa kind n (nfa.state t) w) : Accepts nfa kind (n + 1) s w
  | edge {n : Nat} {s : State} {e : CharSet × Nat} {c : Nat} {w : List Nat} (he : e ∈ s.edges)
      (hc : e.1.contains c = true) (h : Accepts nfa kind n (nfa.state e.2) w) :
      Accepts nfa kind (n + 1) s (c :: w)

theorem accepts_silent_iff {n : Nat} {ts : List Nat} {w : List Nat} :
    Accepts nfa kind n { silent := ts } w ↔
      ∃ m, n = m + 1 ∧ ∃ t ∈ ts, Accepts nfa kind m (nfa.state t) w := by
  constructor
  · intro h
    cases h with
    | here hnone => cases hnone
    | silent ht h => exact ⟨_, rfl, _, ht, h⟩
    | edge he => cases he
  · rintro ⟨m, rfl, t, ht, h⟩
    exact .silent ht h

/-- What is accepted from `s` is a text of `l` with what is accepted from `e`, in no more steps. -/
structure Joins (nfa : Nfa) (s : State) (l : Language Nat) (e : State) : Prop where
  sound : ∀ kind n w, Accepts nfa kind n s w →
    ∃ m ≤ n, ∃ u ∈ l, ∃ v, w = u ++ v ∧ Accepts nfa kind m e v
  complete : ∀ kind m u v, u ∈ l → Accepts nfa kind m e v → ∃ n, Accepts nfa kind n s (u ++ v)

theorem Joins.refl (nfa : Nfa) (s : State) : nfa.Joins s 1 s where
  sound _ n w h := ⟨n, Nat.le_refl n, [], rfl, w, rfl, h⟩
  complete _ m u v hu h := by
    obtain rfl : u = [] := hu
    exact ⟨m, h⟩

theorem Joins.trans {s t e : State} {l l' : Language Nat} (h : nfa.Joins s l t)
    (h' : nfa.Joins t l' e) :
    nfa.Joins s (l * l') e where
  sound kind n w hw := by
    obtain ⟨m, hm, u, hu, v, rfl, hv⟩ := h.sound kind n w hw
    obtain ⟨j, hj, u', hu', v', rfl, hv'⟩ := h'.sound kind m v hv
    exact ⟨j, Nat.le_trans hj hm, u ++ u', ⟨u, hu, u', hu', rfl⟩, v',
      (List.append_assoc ..).symm, hv'⟩
  complete kind m u v hu hv := by
    obtain ⟨x, hx, y, hy, rfl⟩ := hu
    obtain ⟨j, hj⟩ := h'.complete kind m y v hy hv
    obtain ⟨n, hn⟩ := h.complete kind j x _ hx hj
    exact ⟨n, by rwa [List.append_assoc]⟩

theorem Joins.step {e : State} {l : Language Nat} {t : Nat} (h : nfa.Joins (nfa.state t) l e) :
    nfa.Joins { silent := [t] } l e where
  sound kind n w hw := by
    obtain ⟨i, rfl, s, hs, hi⟩ := accepts_silent_iff.1 hw
    obtain rfl := List.mem_singleton.1 hs
    obtain ⟨m, hm, rest⟩ := h.sound kind i w hi
    exact ⟨m, Nat.le_succ_of_le hm, rest⟩
  complete kind m u v hu hv := by
    obtain ⟨n, hn⟩ := h.complete kind m u v hu hv
    exact ⟨n + 1, .silent List.mem_cons_self hn⟩

theorem Joins.branch {e : State} {l l' : Language Nat} {t : Nat} {ts : List Nat}
    (h : nfa.Joins (nfa.state t) l e) (h' : nfa.Joins { silent := ts } l' e) :
    nfa.Joins { silent := t :: ts } (l + l') e where
  sound kind n w hw := by
    obtain ⟨i, rfl, s, hs, hi⟩ := accepts_silent_iff.1 hw
    rcases List.mem_cons.1 hs with rfl | hs
    · obtain ⟨m, hm, u, hu, rest⟩ := h.sound kind i w hi
      exact ⟨m, Nat.le_succ_of_le hm, u, .inl hu, rest⟩
    · obtain ⟨m, hm, u, hu, rest⟩ := h'.sound kind (i + 1) w (.silent hs hi)
      exact ⟨m, hm, u, .inr hu, rest⟩
  complete kind m u v hu hv := by
    rcases hu with hu | hu
    · obtain ⟨n, hn⟩ := h.complete kind m u v hu hv
      exact ⟨n + 1, .silent List.mem_cons_self hn⟩
    · obtain ⟨n, hn⟩ := h'.complete kind m u v hu hv
      obtain ⟨i, rfl, s, hs, hi⟩ := accepts_silent_iff.1 hn
      exact ⟨i + 1, .silent (List.mem_cons_of_mem _ hs) hi⟩

theorem Joins.dead {s : State} (e : State) (hsilent : s.silent = []) (hedges : s.edges = [])
    (haccept : s.accept = none) : nfa.Joins s 0 e where
  sound kind n w hw := by
    cases hw with
    | here h => simp [haccept] at h
    | silent ht => simp [hsilent] at ht
    | edge he => simp [hedges] at he
  complete _ _ _ _ hu := absurd hu (Language.notMem_zero _)

theorem Joins.letter {e : State} {l : Language Nat} {set : CharSet} {t : Nat}
    (ht : nfa.state t = e)
    (hl : ∀ w, w ∈ l ↔ ∃ c : Nat, w = [c] ∧ set.contains c = true) :
    nfa.Joins { edges := [(set, t)] } l e where
  sound kind n w hw := by
    cases hw with
    | here hnone => cases hnone
    | silent h => cases h
    | @edge m _ _ c v he hc hv =>
      obtain rfl := List.mem_singleton.1 he
      rw [ht] at hv
      exact ⟨m, Nat.le_succ m, [c], (hl _).2 ⟨c, rfl, hc⟩, v, rfl, hv⟩
  complete kind m u v hu hv := by
    obtain ⟨c, rfl, hc⟩ := (hl u).1 hu
    rw [← ht] at hv
    exact ⟨m + 1, .edge List.mem_cons_self hc hv⟩

theorem Joins.hub {last : State} {l : Language Nat} {hub body : Nat}
    (hhub : nfa.state hub = { last with silent := body :: last.silent })
    (hbody : nfa.Joins (nfa.state body) l { silent := [hub] }) :
      nfa.Joins (nfa.state hub) l∗ last where
  sound kind n w hw := by
    induction n using Nat.strong_induction_on generalizing w with
    | _ n ih =>
      rw [hhub] at hw
      cases hw with
      | here h => exact ⟨0, Nat.le_refl 0, [], Language.nil_mem_kstar l, [], rfl, .here h⟩
      | @silent m t _ _ ht hw =>
        rcases List.mem_cons.1 ht with rfl | ht
        · -- one round of the body leads back to the hub, with fewer steps to go
          obtain ⟨j, hj, u, hu, v, rfl, hv⟩ := hbody.sound kind m w hw
          obtain ⟨i, rfl, s, hback, hi⟩ := accepts_silent_iff.1 hv
          obtain rfl := List.mem_singleton.1 hback
          obtain ⟨k, hk, x, hx, y, rfl, hy⟩ := ih i (by omega) v hi
          refine ⟨k, by omega, u ++ x, ?_, y, (List.append_assoc ..).symm, hy⟩
          obtain ⟨ws, rfl, hws⟩ := Language.mem_kstar.1 hx
          exact Language.mem_kstar.2 ⟨u :: ws, rfl, List.forall_mem_cons.2 ⟨hu, hws⟩⟩
        · exact ⟨m + 1, Nat.le_refl _, [], Language.nil_mem_kstar l, w, rfl, .silent ht hw⟩
      | @edge m _ _ _ _ he hc hw =>
        exact ⟨m + 1, Nat.le_refl _, [], Language.nil_mem_kstar l, _, rfl, .edge he hc hw⟩
  complete kind m u v hu hv := by
    obtain ⟨ws, rfl, hws⟩ := Language.mem_kstar.1 hu
    clear hu
    induction ws with
    | nil =>
      rw [hhub]
      cases hv with
      | here h => exact ⟨0, .here h⟩
      | silent ht h => exact ⟨_, .silent (List.mem_cons_of_mem _ ht) h⟩
      | edge he hc h => exact ⟨_, .edge he hc h⟩
    | cons x ws ih =>
      obtain ⟨hx, hws⟩ := List.forall_mem_cons.1 hws
      obtain ⟨i, hi⟩ := ih hws
      obtain ⟨j, hj⟩ := hbody.complete kind (i + 1) x _ hx (.silent List.mem_cons_self hi)
      refine ⟨j + 1, ?_⟩
      rw [hhub, List.flatten_cons, List.append_assoc]
      exact .silent List.mem_cons_self hj

theorem Accepts.of_path {q x : Nat}
    (hpath : Relation.ReflTransGen (fun a b => b ∈ nfa.silent a) q x)
    {n : Nat} {w : List Nat} (h : Accepts nfa kind n (nfa.state x) w) :
    ∃ m, Accepts nfa kind m (nfa.state q) w := by
  induction hpath using Relation.ReflTransGen.head_induction_on with
  | refl => exact ⟨n, h⟩
  | head hstep _ ih =>
    obtain ⟨m, hm⟩ := ih
    exact ⟨m + 1, .silent hstep hm⟩

theorem Accepts.exists_path {n q : Nat} {w : List Nat} (h : Accepts nfa kind n (nfa.state q) w) :
    ∃ x, Relation.ReflTransGen (fun a b => b ∈ nfa.silent a) q x ∧
      (w = [] ∧ (nfa.state x).accept = some kind ∨ ∃ c v, w = c :: v ∧ ∃ e ∈ (nfa.state x).edges,
        e.1.contains c = true ∧ ∃ m, Accepts nfa kind m (nfa.state e.2) v) := by
  induction n generalizing q with
  | zero =>
    cases h with
    | here h => exact ⟨q, .refl, .inl ⟨rfl, h⟩⟩
  | succ n ih =>
    cases h with
    | silent ht h =>
      obtain ⟨x, hx, hw⟩ := ih h
      exact ⟨x, .head ht hx, hw⟩
    | edge he hc h => exact ⟨q, .refl, .inr ⟨_, _, rfl, _, he, hc, n, h⟩⟩

theorem mem_kinds {qs : List Nat} : kind ∈ nfa.kinds qs ↔
    ∃ q ∈ qs, (nfa.state q).accept = some kind := by
  rw [kinds, Ascending.mem_ofList, List.mem_filterMap]

theorem pairwise_kinds (nfa : Nfa) (qs : List Nat) : (nfa.kinds qs).Pairwise (· < ·) :=
  Ascending.pairwise_ofList _

theorem mem_kinds_runFrom (h : nfa.WellFormed) {qs : List Nat} (hqs : ∀ q ∈ qs, q < nfa.size)
    (w : List Nat) :
    kind ∈ nfa.kinds (nfa.runFrom (nfa.closure qs) w) ↔
      ∃ q ∈ qs, ∃ n, Accepts nfa kind n (nfa.state q) w := by
  induction w generalizing qs with
  | nil =>
    rw [runFrom, List.foldl_nil, mem_kinds]
    constructor
    · rintro ⟨x, hx, haccept⟩
      obtain ⟨q, hq, hpath⟩ := (mem_closure h hqs).1 hx
      exact ⟨q, hq, Accepts.of_path hpath (.here haccept)⟩
    · rintro ⟨q, hq, n, haccepts⟩
      obtain ⟨x, hpath, ⟨-, haccept⟩ | ⟨c, v, hnil, -⟩⟩ := haccepts.exists_path
      · exact ⟨x, (mem_closure h hqs).2 ⟨q, hq, hpath⟩, haccept⟩
      · cases hnil
  | cons c w ih =>
    have hrun : nfa.runFrom (nfa.closure qs) (c :: w) =
        nfa.runFrom (nfa.closure (nfa.targets (nfa.closure qs) c)) w := rfl
    rw [hrun, ih fun t ht => lt_of_mem_targets h ht]
    constructor
    · rintro ⟨t, ht, n, haccepts⟩
      obtain ⟨x, hx, e, he, hc, rfl⟩ := mem_targets.1 ht
      obtain ⟨q, hq, hpath⟩ := (mem_closure h hqs).1 hx
      exact ⟨q, hq, Accepts.of_path hpath (.edge he hc haccepts)⟩
    · rintro ⟨q, hq, n, haccepts⟩
      obtain ⟨x, hpath, ⟨hnil, -⟩ | ⟨c', v, heq, e, he, hc, m, hm⟩⟩ := haccepts.exists_path
      · cases hnil
      · obtain ⟨rfl, rfl⟩ := List.cons.inj heq
        exact ⟨e.2, mem_targets.2 ⟨x, (mem_closure h hqs).2 ⟨q, hq, hpath⟩, e, he, hc, rfl⟩, m, hm⟩

end PredictiveParsing.Nfa
