/-!
# Bisection

In a list whose members satisfy a predicate up to some place and not from there on, that place is
found by halving the list. The element in the middle is kept together with the half that the place
is in. In a list that is not so ordered bisection still ends, at a place that depends on the
elements it looks at only. Main statements: `bisect_append` and `bisect_le_iff`.
-/
namespace PredictiveParsing

def bisectWithin {α : Type} (p : α → Bool) : (fuel : Nat) → List α → Nat
  | 0, _ => 0
  | _ + 1, [] => 0
  | _ + 1, [x] => if p x then 1 else 0
  | fuel + 1, x :: y :: zs =>
    let half := (zs.length + 2) / 2
    match (x :: y :: zs).drop half with
    | [] => 0
    | middle :: above =>
      if p middle then half + bisectWithin p fuel (middle :: above)
      else bisectWithin p fuel ((x :: y :: zs).take (zs.length + 2 - half))

/-- How many elements stand before the first that does not satisfy `p`, found by halving. -/
def bisect {α : Type} (p : α → Bool) (xs : List α) : Nat := bisectWithin p xs.length xs

theorem bisectWithin_append {α : Type} {p : α → Bool} (fuel : Nat) {xs ys : List α}
    (hfuel : xs.length + ys.length ≤ fuel) (hxs : ∀ x ∈ xs, p x = true)
    (hys : ∀ y ∈ ys, p y = false) : bisectWithin p fuel (xs ++ ys) = xs.length := by
  induction fuel generalizing xs ys with
  | zero =>
    obtain rfl : xs = [] := List.eq_nil_of_length_eq_zero (by omega)
    rfl
  | succ fuel ih =>
    have hsplit (x y : α) (zs : List α) (he : xs ++ ys = x :: y :: zs) :
        bisectWithin p (fuel + 1) (xs ++ ys) = xs.length := by
      have hlen : xs.length + ys.length = zs.length + 2 := by
        have := congrArg List.length he
        simpa using this
      rw [he]
      simp only [bisectWithin]
      rw [← he]
      generalize hhalf : (zs.length + 2) / 2 = half
      cases hd : (xs ++ ys).drop half with
      | nil =>
        have := congrArg List.length hd
        simp only [List.length_drop, List.length_append, List.length_nil] at this
        omega
      | cons middle above =>
        have hmid : (xs ++ ys)[half]? = some middle := by
          rw [← List.head?_drop, hd]; rfl
        by_cases hlt : half < xs.length
        · have hp : p middle = true := by
            rw [List.getElem?_append_left hlt] at hmid
            exact hxs _ (List.mem_of_getElem? hmid)
          rw [List.drop_append_of_le_length (Nat.le_of_lt hlt)] at hd
          simp only [hp, if_true]
          rw [← hd, ih (by simp only [List.length_drop]; omega)
            (fun x hx => hxs x (List.mem_of_mem_drop hx)) hys, List.length_drop]
          omega
        · have hp : p middle = false := by
            rw [List.getElem?_append_right (by omega)] at hmid
            exact hys _ (List.mem_of_getElem? hmid)
          simp only [hp, Bool.false_eq_true, if_false]
          rw [List.take_append, List.take_of_length_le (by omega : xs.length ≤ zs.length + 2 - half),
            ih (by simp only [List.length_take]; omega) hxs
              (fun y hy => hys y (List.mem_of_mem_take hy))]
    match xs, ys with
    | [], [] => rfl
    | [], [y] => simp [bisectWithin, hys]
    | [x], [] => simp [bisectWithin, hxs]
    | [], x :: y :: zs => exact hsplit x y zs rfl
    | [x], y :: zs => exact hsplit x y zs rfl
    | x :: y :: zs, ws => exact hsplit x y (zs ++ ws) rfl

theorem bisect_append {α : Type} {p : α → Bool} {xs ys : List α} (hxs : ∀ x ∈ xs, p x = true)
    (hys : ∀ y ∈ ys, p y = false) : bisect p (xs ++ ys) = xs.length :=
  bisectWithin_append _ (by simp) hxs hys

theorem of_mem_dropWhile {α : Type} {p : α → Bool} {xs : List α}
    (h : xs.Pairwise fun x y => p y = true → p x = true) : ∀ y ∈ xs.dropWhile p, p y = false := by
  induction xs with
  | nil => simp
  | cons x xs ih =>
    obtain ⟨hx, hxs⟩ := List.pairwise_cons.1 h
    intro y hy
    by_cases hp : p x = true
    · rw [List.dropWhile_cons_of_pos hp] at hy
      exact ih hxs y hy
    · rw [List.dropWhile_cons_of_neg hp] at hy
      rcases List.mem_cons.1 hy with rfl | hy
      · simpa using hp
      · cases hpy : p y with
        | true => exact absurd (hx y hy hpy) hp
        | false => rfl

theorem bisect_le_iff {α : Type} {p : α → Bool} {xs : List α}
    (h : xs.Pairwise fun x y => p y = true → p x = true) {i : Nat} {x : α} (hx : xs[i]? = some x) :
    bisect p xs ≤ i ↔ p x = false := by
  have htake : ∀ y ∈ xs.takeWhile p, p y = true := fun y hy => List.all_eq_true.1 List.all_takeWhile y hy
  have hbisect : bisect p xs = (xs.takeWhile p).length := by
    have := bisect_append htake (of_mem_dropWhile h)
    rwa [List.takeWhile_append_dropWhile] at this
  rw [hbisect]
  rw [← List.takeWhile_append_dropWhile (p := p) (l := xs)] at hx
  constructor
  · intro hle
    rw [List.getElem?_append_right hle] at hx
    exact of_mem_dropWhile h x (List.mem_of_getElem? hx)
  · intro hfalse
    by_cases hlt : i < (xs.takeWhile p).length
    · rw [List.getElem?_append_left hlt] at hx
      rw [htake x (List.mem_of_getElem? hx)] at hfalse
      cases hfalse
    · exact Nat.le_of_not_lt hlt

end PredictiveParsing
