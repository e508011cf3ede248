import Mathlib.Data.Finset.Card
import Mathlib.Data.Set.Function
import Mathlib.Logic.Relation
import PredictiveParsing.Graph.Exploration

/-!
# Exploration finds what is reachable

With fuel for all nodes that there are, exploration ends with an empty queue, and then it has found
the nodes that the roots lead to, each once. More fuel changes nothing, and other names for the
nodes change nothing but the names. Main statements: `mem_reachable`, `reachable_of_le` and
`reachable_map`.
-/
namespace PredictiveParsing.Exploration

variable {α : Type} {succ : α → List α} {roots done queue : List α} {x y : α}

def Reaches (succ : α → List α) (roots : List α) (x : α) : Prop :=
  ∃ r ∈ roots, Relation.ReflTransGen (fun a b => b ∈ succ a) r x

theorem Reaches.step (h : Reaches succ roots x) (hy : y ∈ succ x) : Reaches succ roots y := by
  obtain ⟨r, hr, hx⟩ := h
  exact ⟨r, hr, hx.tail hy⟩

structure Encloses (succ : α → List α) (roots : List α) (nodes : Finset α) : Prop where
  root : ∀ r ∈ roots, r ∈ nodes
  closed : ∀ a ∈ nodes, ∀ b ∈ succ a, b ∈ nodes

theorem Encloses.mem {nodes : Finset α} (h : Encloses succ roots nodes)
    (hx : Reaches succ roots x) :
    x ∈ nodes := by
  obtain ⟨r, hr, hpath⟩ := hx
  induction hpath with
  | refl => exact h.root r hr
  | tail _ hstep ih => exact h.closed _ ih _ hstep

variable [DecidableEq α]

theorem mem_fresh {seen xs : List α} : x ∈ fresh seen xs ↔ x ∈ xs ∧ x ∉ seen := by
  induction xs generalizing seen with
  | nil => simp [fresh]
  | cons a xs ih =>
    by_cases h : a ∈ seen
    · rw [fresh, if_pos h, ih, List.mem_cons]
      constructor
      · exact fun hx => ⟨.inr hx.1, hx.2⟩
      · rintro ⟨rfl | hx, hseen⟩
        · exact absurd h hseen
        · exact ⟨hx, hseen⟩
    · rw [fresh, if_neg h, List.mem_cons, ih, List.mem_cons, List.mem_cons]
      by_cases hxa : x = a
      · simp [hxa, h]
      · simp [hxa]

theorem nodup_fresh {seen xs : List α} : (fresh seen xs).Nodup := by
  induction xs generalizing seen with
  | nil => exact .nil
  | cons a xs ih =>
    by_cases h : a ∈ seen
    · rw [fresh, if_pos h]
      exact ih
    · rw [fresh, if_neg h]
      refine List.nodup_cons.2 ⟨fun ha => ?_, ih⟩
      exact (mem_fresh.1 ha).2 List.mem_cons_self

structure Frontier (succ : α → List α) (roots done queue : List α) : Prop where
  nodup : (done ++ queue).Nodup
  root : ∀ r ∈ roots, r ∈ done ++ queue
  closed : ∀ a ∈ done, ∀ b ∈ succ a, b ∈ done ++ queue
  reached : ∀ a ∈ done ++ queue, Reaches succ roots a

theorem frontier_start (succ : α → List α) (roots : List α) :
    Frontier succ roots [] (fresh [] roots) where
  nodup := nodup_fresh
  root _ hr := mem_fresh.2 ⟨hr, List.not_mem_nil⟩
  closed _ ha := absurd ha List.not_mem_nil
  reached a ha := ⟨a, (mem_fresh.1 ha).1, .refl⟩

theorem Frontier.expand (h : Frontier succ roots done (x :: queue)) :
    Frontier succ roots (x :: done) (queue ++ fresh (x :: queue ++ done) (succ x)) := by
  have hold {a : α} : a ∈ done ++ x :: queue →
      a ∈ x :: done ++ (queue ++ fresh (x :: queue ++ done) (succ x)) := by
    simp only [List.mem_append, List.mem_cons]
    tauto
  have hnew {b : α} (hb : b ∈ succ x) :
      b ∈ x :: done ++ (queue ++ fresh (x :: queue ++ done) (succ x)) := by
    simp only [List.mem_append, List.mem_cons, mem_fresh]
    tauto
  refine ⟨?_, fun r hr => hold (h.root r hr), ?_, ?_⟩
  · have hperm : (x :: done ++ queue).Nodup := h.nodup.perm (List.perm_middle)
    rw [← List.append_assoc]
    refine List.nodup_append.2 ⟨hperm, nodup_fresh, fun a ha b hb heq => ?_⟩
    subst heq
    refine (mem_fresh.1 hb).2 ?_
    simp only [List.mem_append, List.mem_cons] at ha ⊢
    tauto
  · intro a ha b hb
    rcases List.mem_cons.1 ha with rfl | ha
    · exact hnew hb
    · exact hold (h.closed a ha b hb)
  · intro a ha
    simp only [List.mem_append, List.mem_cons, mem_fresh] at ha
    have hx : Reaches succ roots x := h.reached x (List.mem_append_right _ List.mem_cons_self)
    rcases ha with (rfl | ha) | ha | ⟨ha, -⟩
    · exact hx
    · exact h.reached a (List.mem_append_left _ ha)
    · exact h.reached a (List.mem_append_right _ (List.mem_cons_of_mem _ ha))
    · exact hx.step ha

theorem Frontier.queue_eq_nil {nodes : Finset α} (h : Frontier succ roots done queue)
    (hnodes : Encloses succ roots nodes) (hcard : nodes.card ≤ done.length) : queue = [] := by
  have hle : (done ++ queue).length ≤ nodes.card := by
    rw [← List.toFinset_card_of_nodup h.nodup]
    refine Finset.card_le_card fun a ha => hnodes.mem (h.reached a (List.mem_toFinset.1 ha))
  rw [List.length_append] at hle
  exact List.eq_nil_of_length_eq_zero (by omega)

theorem frontier_end {nodes : Finset α} (hnodes : Encloses succ roots nodes) {fuel : Nat}
    (h : Frontier succ roots done queue) (hfuel : nodes.card ≤ fuel + done.length) :
    ∃ all, Frontier succ roots all [] ∧ Exploration.expand succ fuel done queue = all.reverse := by
  induction fuel generalizing done queue with
  | zero =>
    obtain rfl := h.queue_eq_nil hnodes (by omega)
    exact ⟨done, h, by simp [Exploration.expand]⟩
  | succ fuel ih =>
    cases queue with
    | nil => exact ⟨done, h, rfl⟩
    | cons x queue => exact ih h.expand (by rw [List.length_cons]; omega)

section

variable {nodes : Finset α} (hnodes : Encloses succ roots nodes) {fuel : Nat}
    (hfuel : nodes.card ≤ fuel)

include hnodes hfuel

theorem mem_reachable : x ∈ reachable succ fuel roots ↔ Reaches succ roots x := by
  have hall : nodes.card ≤ fuel + ([] : List α).length := hfuel
  obtain ⟨all, hall, heq⟩ := frontier_end hnodes (frontier_start succ roots) hall
  have hmem {a : α} : a ∈ reachable succ fuel roots ↔ a ∈ all ++ [] := by
    rw [reachable, heq, List.mem_reverse, List.append_nil]
  rw [hmem]
  constructor
  · exact hall.reached x
  · rintro ⟨r, hr, hpath⟩
    induction hpath with
    | refl => exact hall.root r hr
    | tail _ hstep ih => exact hall.closed _ (by simpa using ih) _ hstep

theorem nodup_reachable : (reachable succ fuel roots).Nodup := by
  have hall : nodes.card ≤ fuel + ([] : List α).length := hfuel
  obtain ⟨all, hall, heq⟩ := frontier_end hnodes (frontier_start succ roots) hall
  rw [reachable, heq, List.nodup_reverse]
  simpa using hall.nodup

end

theorem expand_add_fuel {nodes : Finset α} (hnodes : Encloses succ roots nodes) {fuel : Nat}
    (h : Frontier succ roots done queue) (hfuel : nodes.card ≤ fuel + done.length) (n : Nat) :
    expand succ (fuel + n) done queue = expand succ fuel done queue := by
  induction fuel generalizing done queue with
  | zero =>
    obtain rfl := h.queue_eq_nil hnodes (by omega)
    rw [Nat.zero_add, expand]
    cases n <;> simp [expand]
  | succ fuel ih =>
    rw [Nat.add_right_comm]
    cases queue with
    | nil => rfl
    | cons x queue => exact ih h.expand (by rw [List.length_cons]; omega)

theorem reachable_of_le {nodes : Finset α} (hnodes : Encloses succ roots nodes) {fuel fuel' : Nat}
    (hfuel : nodes.card ≤ fuel) (hle : fuel ≤ fuel') :
    reachable succ fuel' roots = reachable succ fuel roots := by
  obtain ⟨n, rfl⟩ := Nat.exists_eq_add_of_le hle
  exact expand_add_fuel hnodes (frontier_start succ roots) hfuel n

section

variable {β : Type} [DecidableEq β] {succ' : β → List β} {φ : α → β} {nodes : Set α}
  (hφ : Set.InjOn φ nodes)

include hφ

theorem fresh_map {seen xs : List α} (hseen : ∀ x ∈ seen, x ∈ nodes) (hxs : ∀ x ∈ xs, x ∈ nodes) :
    fresh (seen.map φ) (xs.map φ) = (fresh seen xs).map φ := by
  induction xs generalizing seen with
  | nil => rfl
  | cons x xs ih =>
    obtain ⟨hx, hxs⟩ := List.forall_mem_cons.1 hxs
    have hmem : φ x ∈ seen.map φ ↔ x ∈ seen := by
      refine ⟨fun h => ?_, List.mem_map_of_mem⟩
      obtain ⟨y, hy, heq⟩ := List.mem_map.1 h
      rwa [← hφ (hseen y hy) hx heq]
    rw [List.map_cons, fresh, fresh]
    by_cases hin : x ∈ seen
    · rw [if_pos (hmem.2 hin), if_pos hin, ih hseen hxs]
    · rw [if_neg (mt hmem.1 hin), if_neg hin, List.map_cons, ← ih (List.forall_mem_cons.2
        ⟨hx, hseen⟩) hxs, List.map_cons]

variable (hclosed : ∀ a ∈ nodes, ∀ b ∈ succ a, b ∈ nodes)
  (hsucc : ∀ a ∈ nodes, succ' (φ a) = (succ a).map φ)

include hclosed hsucc

theorem expand_map {fuel : Nat} (hdone : ∀ x ∈ done, x ∈ nodes) (hqueue : ∀ x ∈ queue, x ∈ nodes) :
    expand succ' fuel (done.map φ) (queue.map φ) = (expand succ fuel done queue).map φ := by
  induction fuel generalizing done queue with
  | zero => simp [expand]
  | succ fuel ih =>
    cases queue with
    | nil => simp [expand]
    | cons x queue =>
      obtain ⟨hx, hqueue⟩ := List.forall_mem_cons.1 hqueue
      have hseen : ∀ y ∈ x :: queue ++ done, y ∈ nodes :=
        List.forall_mem_append.2 ⟨List.forall_mem_cons.2 ⟨hx, hqueue⟩, hdone⟩
      have hnew : ∀ y ∈ fresh (x :: queue ++ done) (succ x), y ∈ nodes :=
        fun y hy => hclosed x hx y (mem_fresh.1 hy).1
      have hfresh := fresh_map hφ hseen (hclosed x hx)
      rw [List.map_append, List.map_cons] at hfresh
      rw [List.map_cons, expand, expand, hsucc x hx, hfresh, ← List.map_append, ← List.map_cons]
      exact ih (List.forall_mem_cons.2 ⟨hx, hdone⟩) (List.forall_mem_append.2 ⟨hqueue, hnew⟩)

theorem reachable_map {fuel : Nat} (hroots : ∀ r ∈ roots, r ∈ nodes) :
    reachable succ' fuel (roots.map φ) = (reachable succ fuel roots).map φ := by
  have hnone : ∀ x ∈ ([] : List α), x ∈ nodes := by simp
  have hfresh : fresh [] (roots.map φ) = (fresh [] roots).map φ := fresh_map hφ hnone hroots
  rw [reachable, reachable, hfresh]
  exact expand_map hφ hclosed hsucc hnone fun x hx => hroots x (mem_fresh.1 hx).1

end

theorem prefix_expand (succ : α → List α) (fuel : Nat) (done queue : List α) :
    done.reverse ++ queue <+: expand succ fuel done queue := by
  induction fuel generalizing done queue with
  | zero => exact List.prefix_refl _
  | succ fuel ih =>
    cases queue with
    | nil => simp [expand]
    | cons x queue =>
      refine List.IsPrefix.trans ?_ (ih (x :: done) _)
      simp

theorem getElem?_reachable_zero (succ : α → List α) (fuel : Nat) (root : α) :
    (reachable succ fuel [root])[0]? = some root := by
  obtain ⟨rest, hrest⟩ := prefix_expand succ fuel [] [root]
  have heq : reachable succ fuel [root] = root :: rest := by
    rw [reachable, fresh, if_neg List.not_mem_nil]
    exact hrest.symm
  rw [heq]
  rfl

end PredictiveParsing.Exploration
