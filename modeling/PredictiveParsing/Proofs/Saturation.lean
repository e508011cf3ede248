import Mathlib.Algebra.Group.Nat.Defs
import Mathlib.Tactic.ByContra
import PredictiveParsing.Graph.Saturation

/-!
# Saturation reaches a fixed point

If every pass with an effect adds to a weight that stays below the number of passes allowed, the
last pass was without effect. What every pass keeps holds of the result.
-/
namespace PredictiveParsing.Saturation

variable {α : Type} [DecidableEq α] {pass : α → α}

structure Progress (pass : α → α) (keep : α → Prop) (weight : α → Nat) (s : Saturation α) :
    Prop where
  keep : keep s.value
  settled : s.settled = true → pass s.value = s.value
  open_ : s.settled = false → s.passes ≤ weight s.value

section

variable {keep : α → Prop} (hkeep : ∀ a, keep a → keep (pass a))

include hkeep

theorem advanceBy_keeps {s : Saturation α} (h : keep s.value) (n : Nat) :
    keep (s.advanceBy pass n).value := by
  induction n generalizing s with
  | zero => exact h
  | succ n ih =>
    rw [advanceBy]
    split
    · exact h
    · next hopen =>
      rw [advance, if_neg hopen]
      exact ih (hkeep _ h)

theorem advanceDoubling_keeps {s : Saturation α} (h : keep s.value) (rounds n : Nat) :
    keep (s.advanceDoubling pass rounds n).value := by
  induction rounds generalizing s n with
  | zero => exact h
  | succ rounds ih =>
    rw [advanceDoubling]
    split
    · exact h
    · exact ih (advanceBy_keeps hkeep h n) _

theorem run_keeps {start : α} (h : keep start) (rounds : Nat) :
    keep (run pass rounds start).value :=
  advanceDoubling_keeps hkeep h rounds 1

end

section

variable {keep : α → Prop} {weight : α → Nat} (hkeep : ∀ a, keep a → keep (pass a))
  (hgrow : ∀ a, keep a → pass a ≠ a → weight a < weight (pass a))

include hkeep hgrow

theorem Progress.after {s : Saturation α} (h : Progress pass keep weight s) :
    Progress pass keep weight (s.advance pass) := by
  unfold advance
  split
  · exact h
  · next hopen =>
    refine ⟨hkeep _ h.keep, fun hsettled => ?_, fun hunsettled => ?_⟩
    · have heq : pass s.value = s.value := of_decide_eq_true hsettled
      exact congrArg pass heq
    · have hne : pass s.value ≠ s.value := of_decide_eq_false hunsettled
      have hlt := hgrow _ h.keep hne
      have hle := h.open_ (Bool.eq_false_iff.2 hopen)
      exact Nat.succ_le_of_lt (Nat.lt_of_le_of_lt hle hlt)

theorem Progress.afterBy {s : Saturation α} (h : Progress pass keep weight s) (n : Nat) :
    Progress pass keep weight (s.advanceBy pass n) ∧
      ((s.advanceBy pass n).settled = false → (s.advanceBy pass n).passes = s.passes + n) := by
  induction n generalizing s with
  | zero => exact ⟨h, fun _ => rfl⟩
  | succ n ih =>
    rw [advanceBy]
    split
    · next hsettled =>
        exact ⟨h, fun hopen => absurd hsettled (by rw [hopen]; exact Bool.false_ne_true)⟩
    · next hopen =>
      obtain ⟨hprogress, hpasses⟩ := ih (h.after hkeep hgrow)
      refine ⟨hprogress, fun hunsettled => ?_⟩
      have hstep : (s.advance pass).passes = s.passes + 1 := by rw [advance, if_neg hopen]
      rw [hpasses hunsettled, hstep, Nat.add_assoc, Nat.add_comm 1]

theorem Progress.afterDoubling {s : Saturation α} (h : Progress pass keep weight s)
    (rounds n : Nat) :
    Progress pass keep weight (s.advanceDoubling pass rounds n) ∧
      ((s.advanceDoubling pass rounds n).settled = false →
        (s.advanceDoubling pass rounds n).passes + n = s.passes + 2 ^ rounds * n) := by
  induction rounds generalizing s n with
  | zero => exact ⟨h, fun _ => by rw [advanceDoubling, Nat.pow_zero, Nat.one_mul]⟩
  | succ rounds ih =>
    rw [advanceDoubling]
    split
    · next hsettled =>
        exact ⟨h, fun hopen => absurd hsettled (by rw [hopen]; exact Bool.false_ne_true)⟩
    · obtain ⟨hby, hbypasses⟩ := h.afterBy hkeep hgrow n
      obtain ⟨hprogress, hpasses⟩ := ih hby (2 * n)
      refine ⟨hprogress, fun hunsettled => ?_⟩
      -- had the stretch settled the value, the longer ones after it would have left it settled
      have hopen : (s.advanceBy pass n).settled = false := by
        by_contra hsettled
        rw [Bool.not_eq_false] at hsettled
        have hstays :
            advanceDoubling pass rounds (2 * n) (s.advanceBy pass n) = s.advanceBy pass n := by
          cases rounds with
          | zero => rfl
          | succ rounds => rw [advanceDoubling, if_pos hsettled]
        rw [hstays, hsettled] at hunsettled
        cases hunsettled
      have := hpasses hunsettled
      rw [hbypasses hopen] at this
      have hpow : 2 ^ (rounds + 1) * n = 2 ^ rounds * (2 * n) := by rw [Nat.pow_succ, Nat.mul_assoc]
      omega

theorem run_settles {start : α} (hstart : keep start) {bound rounds : Nat}
    (hbound : ∀ a, keep a → weight a ≤ bound) (hrounds : bound + 1 < 2 ^ rounds) :
    Progress pass keep weight (run pass rounds start) ∧
      (run pass rounds start).settled = true := by
  have hprogress : Progress pass keep weight ⟨start, 0, false⟩ :=
    ⟨hstart, fun h => absurd h Bool.false_ne_true, fun _ => Nat.zero_le _⟩
  obtain ⟨hend, hpasses⟩ := hprogress.afterDoubling hkeep hgrow rounds 1
  refine ⟨hend, ?_⟩
  by_contra hopen
  rw [Bool.not_eq_true] at hopen
  have hmade := hpasses hopen
  have hle := hend.open_ hopen
  have := hbound _ hend.keep
  simp only [Nat.mul_one, Nat.zero_add] at hmade
  omega

end

end PredictiveParsing.Saturation
