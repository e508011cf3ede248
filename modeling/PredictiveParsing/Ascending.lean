/-!
# Ascending lists

A finite set of numbers is written as the list of its members from the lowest to the highest, so
that sets with the same members are equal lists. Main statements: `mem_ofList` and `pairwise_ofList`
say that `ofList` gives that list, and `ext` that there is only one.
-/
namespace PredictiveParsing.Ascending

def insert (n : Nat) : List Nat → List Nat
  | [] => [n]
  | m :: ms => if n < m then n :: m :: ms else if n = m then m :: ms else m :: insert n ms

def ofList (ns : List Nat) : List Nat := ns.foldr insert []

theorem mem_insert {n x : Nat} {ms : List Nat} : x ∈ insert n ms ↔ x = n ∨ x ∈ ms := by
  induction ms with
  | nil => simp [insert]
  | cons m ms ih =>
    rw [insert]
    split
    · exact List.mem_cons
    · split
      · next heq => simp [heq]
      · rw [List.mem_cons, List.mem_cons, ih]
        exact or_left_comm

theorem pairwise_insert {n : Nat} {ms : List Nat} (h : ms.Pairwise (· < ·)) :
    (insert n ms).Pairwise (· < ·) := by
  induction ms with
  | nil => exact List.pairwise_singleton _ _
  | cons m ms ih =>
    obtain ⟨hm, hms⟩ := List.pairwise_cons.1 h
    rw [insert]
    split
    · next hlt =>
      refine List.pairwise_cons.2 ⟨fun x hx => ?_, h⟩
      rcases List.mem_cons.1 hx with rfl | hx
      · exact hlt
      · exact Nat.lt_trans hlt (hm x hx)
    · split
      · exact h
      · refine List.pairwise_cons.2 ⟨fun x hx => ?_, ih hms⟩
        rcases mem_insert.1 hx with rfl | hx
        · omega
        · exact hm x hx

@[simp] theorem mem_ofList {x : Nat} {ns : List Nat} : x ∈ ofList ns ↔ x ∈ ns := by
  induction ns with
  | nil => rfl
  | cons n ns ih => rw [ofList, List.foldr_cons, mem_insert, List.mem_cons, ← ih, ofList]

theorem pairwise_ofList (ns : List Nat) : (ofList ns).Pairwise (· < ·) := by
  induction ns with
  | nil => exact .nil
  | cons n ns ih => exact pairwise_insert ih

theorem eq_of_mem_iff {α : Type} {r : α → α → Prop} (irrefl : ∀ a, ¬ r a a)
    (trans : ∀ {a b c}, r a b → r b c → r a c) {xs ys : List α} (hxs : xs.Pairwise r)
    (hys : ys.Pairwise r) (h : ∀ a, a ∈ xs ↔ a ∈ ys) : xs = ys := by
  induction xs generalizing ys with
  | nil =>
    cases ys with
    | nil => rfl
    | cons y ys => exact absurd ((h y).2 List.mem_cons_self) List.not_mem_nil
  | cons x xs ih =>
    cases ys with
    | nil => exact absurd ((h x).1 List.mem_cons_self) List.not_mem_nil
    | cons y ys =>
      obtain ⟨hx, hxs'⟩ := List.pairwise_cons.1 hxs
      obtain ⟨hy, hys'⟩ := List.pairwise_cons.1 hys
      have hxy : x = y := by
        rcases List.mem_cons.1 ((h x).1 List.mem_cons_self) with he | hin
        · exact he
        · rcases List.mem_cons.1 ((h y).2 List.mem_cons_self) with he | hin'
          · exact he.symm
          · exact absurd (trans (hy x hin) (hx y hin')) (irrefl y)
      subst hxy
      refine congrArg (x :: ·) (ih hxs' hys' fun a => ⟨fun ha => ?_, fun ha => ?_⟩)
      · rcases List.mem_cons.1 ((h a).1 (List.mem_cons_of_mem _ ha)) with rfl | ha'
        · exact absurd (hx a ha) (irrefl a)
        · exact ha'
      · rcases List.mem_cons.1 ((h a).2 (List.mem_cons_of_mem _ ha)) with rfl | ha'
        · exact absurd (hy a ha) (irrefl a)
        · exact ha'

theorem ext {ms ns : List Nat} (hms : ms.Pairwise (· < ·)) (hns : ns.Pairwise (· < ·))
    (h : ∀ x, x ∈ ms ↔ x ∈ ns) : ms = ns :=
  eq_of_mem_iff Nat.lt_irrefl Nat.lt_trans hms hns h

theorem head?_eq_some_iff {ks : List Nat} (h : ks.Pairwise (· < ·)) {k : Nat} :
    ks.head? = some k ↔ k ∈ ks ∧ ∀ j ∈ ks, k ≤ j := by
  cases ks with
  | nil => simp
  | cons a ks =>
    obtain ⟨ha, -⟩ := List.pairwise_cons.1 h
    rw [List.head?_cons, Option.some.injEq]
    constructor
    · rintro rfl
      exact ⟨List.mem_cons_self,
        List.forall_mem_cons.2 ⟨Nat.le_refl _, fun j hj => Nat.le_of_lt (ha j hj)⟩⟩
    · rintro ⟨hk, hle⟩
      rcases List.mem_cons.1 hk with rfl | hk
      · rfl
      · have := hle a List.mem_cons_self
        have := ha k hk
        omega

end PredictiveParsing.Ascending
