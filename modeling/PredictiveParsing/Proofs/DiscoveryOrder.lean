import PredictiveParsing.Proofs.Exploration

/-!
# The order of discovery

Where the nodes carry the numbers in which a breadth-first exploration finds them, the order can be
told without the exploration: every node but the root is found by one before it, and of two nodes
the first has a predecessor that was expanded earlier, or stands earlier among the successors of the
same one. Main statement: `foundInOrder_reachable`.
-/
namespace PredictiveParsing.Exploration

theorem pairwise_fresh {α : Type} [DecidableEq α] (seen xs : List α) :
    (fresh seen xs).Pairwise fun y z => xs.idxOf y < xs.idxOf z := by
  induction xs generalizing seen with
  | nil => exact .nil
  | cons a xs ih =>
    -- what is found among the rest is not `a`, so it stands one place later in the whole
    have hlater (seen : List α) (ha : a ∈ seen) :
        (fresh seen xs).Pairwise fun y z => (a :: xs).idxOf y < (a :: xs).idxOf z := by
      have hne : ∀ y ∈ fresh seen xs, a ≠ y := by
        intro y hy heq
        exact (mem_fresh.1 hy).2 (heq ▸ ha)
      refine (ih seen).imp_of_mem fun {y z} hy hz hlt => ?_
      rw [List.idxOf_cons_ne _ (hne y hy), List.idxOf_cons_ne _ (hne z hz)]
      omega
    by_cases ha : a ∈ seen
    · rw [fresh, if_pos ha]
      exact hlater seen ha
    · rw [fresh, if_neg ha]
      refine List.pairwise_cons.2 ⟨?_, hlater _ List.mem_cons_self⟩
      intro y hy
      have hne : a ≠ y := by
        intro heq
        exact (mem_fresh.1 hy).2 (heq ▸ List.mem_cons_self)
      rw [List.idxOf_cons_self, List.idxOf_cons_ne _ hne]
      omega

variable {succ : Nat → List Nat} {i m n : Nat} {done queue seen : List Nat}

/-- The first `i` nodes are expanded, which has found the first `m` nodes, in this order. -/
structure FoundInOrder (succ : Nat → List Nat) (i m : Nat) : Prop where
  closed : ∀ x < i, ∀ y ∈ succ x, y < m
  found : ∀ y, 0 < y → y < m → ∃ x < i, x < y ∧ y ∈ succ x
  earlier : ∀ y y', 0 < y → y < y' → y' < m → ∀ x' < i, y' ∈ succ x' →
    ∃ x ≤ x', y ∈ succ x ∧ (x = x' → (succ x).idxOf y < (succ x).idxOf y')

theorem foundInOrder_start (succ : Nat → List Nat) : FoundInOrder succ 0 1 where
  closed x hx := absurd hx (Nat.not_lt_zero x)
  found y hpos hlt := by omega
  earlier y y' hpos hlt hlt' := by omega

theorem FoundInOrder.expand (h : FoundInOrder succ i m) (him : i < m)
    (hseen : ∀ y, y ∈ seen ↔ y < m) (hnew : fresh seen (succ i) = (List.range n).map (m + ·)) :
    FoundInOrder succ (i + 1) (m + n) := by
  have hfresh (y : Nat) : y ∈ succ i ∧ m ≤ y ↔ m ≤ y ∧ y < m + n := by
    have hmem : y ∈ fresh seen (succ i) ↔ ∃ j < n, m + j = y := by simp [hnew]
    rw [mem_fresh, hseen, Nat.not_lt] at hmem
    rw [hmem]
    constructor
    · intro ⟨j, hj, heq⟩
      omega
    · intro ⟨hle, hlt⟩
      exact ⟨y - m, by omega, by omega⟩
  refine ⟨?_, ?_, ?_⟩
  · intro x hx y hy
    rcases Nat.lt_succ_iff_lt_or_eq.1 hx with hlt | rfl
    · have hold := h.closed x hlt y hy
      omega
    · by_contra hge
      have hnot := ((hfresh y).1 ⟨hy, by omega⟩).2
      omega
  · intro y hpos hlt
    rcases Nat.lt_or_ge y m with hold | hge
    · obtain ⟨x, hx, hxy, hmem⟩ := h.found y hpos hold
      exact ⟨x, by omega, hxy, hmem⟩
    · exact ⟨i, by omega, by omega, ((hfresh y).2 ⟨hge, hlt⟩).1⟩
  · intro y y' hpos hlt hlt' x' hx' hy'
    have hlast (hge : m ≤ y') : x' = i := by
      by_contra hne
      have hold := h.closed x' (by omega) y' hy'
      omega
    rcases Nat.lt_or_ge y m with hold | hge
    · rcases Nat.lt_succ_iff_lt_or_eq.1 hx' with hx' | rfl
      · have hy'' := h.closed x' hx' y' hy'
        exact h.earlier y y' hpos hlt hy'' x' hx' hy'
      · obtain ⟨x, hx, -, hmem⟩ := h.found y hpos hold
        exact ⟨x, by omega, hmem, by omega⟩
    · -- both are found now, in the order in which they stand
      obtain rfl := hlast (by omega)
      have horder := pairwise_fresh seen (succ x')
      rw [hnew, List.pairwise_map, List.pairwise_iff_getElem] at horder
      have hplaces := horder (y - m) (y' - m) (by simp; omega) (by simp; omega) (by omega)
      simp only [List.getElem_range, Nat.add_sub_of_le hge,
        Nat.add_sub_of_le (Nat.le_trans hge (Nat.le_of_lt hlt))] at hplaces
      exact ⟨x', Nat.le_refl x', ((hfresh y).2 ⟨hge, by omega⟩).1, fun _ => hplaces⟩

theorem eq_range_of_append {xs ys : List Nat} (h : xs ++ ys <+: List.range n) :
    xs = List.range xs.length ∧ ys = (List.range ys.length).map (xs.length + ·) := by
  have hlength : (xs ++ ys).length ≤ n := by simpa using h.length_le
  have htake := List.prefix_iff_eq_take.1 h
  rw [List.take_range, Nat.min_eq_left hlength, List.length_append, List.range_add] at htake
  exact List.append_inj htake (by simp)

theorem foundInOrder_expand {fuel : Nat}
    (h : Exploration.expand succ fuel done queue = List.range n) (hfuel : done.length + fuel = n)
    (hfound : FoundInOrder succ done.length (done.length + queue.length)) :
    FoundInOrder succ n n := by
  have hlength := congrArg List.length h
  rw [List.length_range] at hlength
  induction fuel generalizing done queue with
  | zero =>
    rw [Exploration.expand, List.length_append, List.length_reverse] at hlength
    have hdone : done.length = n := by omega
    rwa [hlength, hdone] at hfound
  | succ fuel ih =>
    cases queue with
    | nil =>
      rw [Exploration.expand, List.length_reverse] at hlength
      omega
    | cons x queue =>
      rw [Exploration.expand] at h hlength
      have hbegin := h ▸ prefix_expand succ fuel (x :: done) _
      generalize hnew : fresh (x :: queue ++ done) (succ x) = new at h hlength hbegin
      have hall : (x :: done).reverse ++ (queue ++ new) = (done.reverse ++ x :: queue) ++ new := by
        simp
      obtain ⟨hseen, hrange⟩ := eq_range_of_append (hall ▸ hbegin)
      have hcount : (done.reverse ++ x :: queue).length = done.length + (x :: queue).length := by
        simp
      have hx : x = done.length := by
        have hget := congrArg (·[done.length]?) hseen
        simpa using hget
      have hmem (y : Nat) : y ∈ x :: queue ++ done ↔ y < done.length + (x :: queue).length := by
        rw [← hcount, ← List.mem_range, ← hseen]
        simp only [List.mem_append, List.mem_cons, List.mem_reverse]
        tauto
      rw [hx, hrange, hcount] at hnew
      have hstep := hfound.expand (by simp) (hx ▸ hmem) hnew
      apply ih h
      · rw [List.length_cons]
        omega
      · simp only [List.length_cons, List.length_append] at hstep ⊢
        rwa [show done.length + 1 + (queue.length + new.length) =
          done.length + (queue.length + 1) + new.length by omega]
      · exact hlength

/-- Where an exploration from 0 finds the nodes by their numbers, they are in the order of
discovery. -/
theorem foundInOrder_reachable (h : reachable succ n [0] = List.range n) :
    FoundInOrder succ n n :=
  foundInOrder_expand h (Nat.zero_add n) (foundInOrder_start succ)

end PredictiveParsing.Exploration
