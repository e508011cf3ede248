/-!
# Lists of intervals

Code points are natural numbers and intervals include both ends. Intervals are sorted, and then each
takes in those after it that overlap or touch it. What comes out is separated: the intervals
increase, and there is room between them. The gaps of a separated list are separated too. Main
statements: `Separated.merged`, `mem_merged` and `Separated.gaps`.
-/
namespace PredictiveParsing

structure Interval where
  lo : Nat
  hi : Nat
deriving DecidableEq, Ord, Inhabited

namespace Interval

def contains (r : Interval) (c : Nat) : Bool := r.lo ≤ c && c ≤ r.hi

theorem contains_iff {r : Interval} {c : Nat} : r.contains c = true ↔ r.lo ≤ c ∧ c ≤ r.hi := by
  simp [contains]

def le (r s : Interval) : Bool := r.lo < s.lo || r.lo = s.lo && r.hi ≤ s.hi

def insert (r : Interval) : List Interval → List Interval
  | [] => [r]
  | x :: xs => if r.le x then r :: x :: xs else x :: insert r xs

def sort (rs : List Interval) : List Interval := rs.foldr insert []

theorem mem_insert {r y : Interval} {rs : List Interval} : y ∈ insert r rs ↔ y = r ∨ y ∈ rs := by
  induction rs with
  | nil => simp [insert]
  | cons x xs ih =>
    rw [insert]
    split
    · exact List.mem_cons
    · rw [List.mem_cons, List.mem_cons, ih]
      exact or_left_comm

theorem mem_sort {y : Interval} {rs : List Interval} : y ∈ sort rs ↔ y ∈ rs := by
  induction rs with
  | nil => rfl
  | cons r rs ih => rw [sort, List.foldr_cons, mem_insert, List.mem_cons, ← ih, sort]

theorem pairwise_insert {r : Interval} {rs : List Interval}
    (h : rs.Pairwise fun a b => a.lo ≤ b.lo) :
    (insert r rs).Pairwise fun a b => a.lo ≤ b.lo := by
  induction rs with
  | nil => exact List.pairwise_singleton _ _
  | cons x xs ih =>
    obtain ⟨hx, hxs⟩ := List.pairwise_cons.1 h
    rw [insert]
    split
    · next hle =>
      have hle : r.lo ≤ x.lo := by
        simp only [le, Bool.or_eq_true, Bool.and_eq_true, decide_eq_true_eq] at hle
        omega
      refine List.pairwise_cons.2 ⟨List.forall_mem_cons.2 ⟨hle, fun y hy => ?_⟩, h⟩
      exact Nat.le_trans hle (hx y hy)
    · next hle =>
      have hle : x.lo ≤ r.lo := by
        simp only [le, Bool.or_eq_true, Bool.and_eq_true, decide_eq_true_eq] at hle
        omega
      refine List.pairwise_cons.2 ⟨fun y hy => ?_, ih hxs⟩
      rcases mem_insert.1 hy with rfl | hy
      · exact hle
      · exact hx y hy

theorem pairwise_sort (rs : List Interval) : (sort rs).Pairwise fun a b => a.lo ≤ b.lo := by
  induction rs with
  | nil => exact .nil
  | cons r rs ih => exact pairwise_insert ih

end Interval

namespace CharSet

/-- The intervals increase and neither overlap nor touch, and none is empty. -/
structure Separated (rs : List Interval) : Prop where
  apart : rs.Pairwise fun a b => a.hi + 1 < b.lo
  nonempty : ∀ r ∈ rs, r.lo ≤ r.hi

theorem Separated.nil : Separated [] := ⟨.nil, by simp⟩

theorem Separated.singleton {r : Interval} (h : r.lo ≤ r.hi) : Separated [r] :=
  ⟨List.pairwise_singleton _ _, by simpa using h⟩

theorem Separated.cons {r : Interval} {rs : List Interval} (hr : r.lo ≤ r.hi)
    (hlt : ∀ x ∈ rs, r.hi + 1 < x.lo) (h : Separated rs) : Separated (r :: rs) :=
  ⟨List.pairwise_cons.2 ⟨hlt, h.apart⟩, List.forall_mem_cons.2 ⟨hr, h.nonempty⟩⟩

theorem Separated.of_cons {r : Interval} {rs : List Interval} (h : Separated (r :: rs)) :
    Separated rs :=
  ⟨h.apart.of_cons, fun x hx => h.nonempty x (List.mem_cons_of_mem _ hx)⟩

theorem Separated.of_append {rs ss : List Interval} (h : Separated (rs ++ ss)) :
    ∀ r ∈ rs, ∀ x ∈ ss, r.hi + 1 < x.lo :=
  fun r hr x hx => (List.pairwise_append.1 h.apart).2.2 r hr x hx

def mergeFrom (last : Interval) : List Interval → List Interval
  | [] => [last]
  | r :: rs =>
    if r.lo ≤ last.hi + 1 then mergeFrom ⟨last.lo, max last.hi r.hi⟩ rs
    else last :: mergeFrom r rs

def merge : List Interval → List Interval
  | [] => []
  | r :: rs => mergeFrom r rs

def merged (rs : List Interval) : List Interval :=
  merge (Interval.sort (rs.filter fun r => r.lo ≤ r.hi))

theorem lo_mergeFrom {b : Nat} {last : Interval} {rs : List Interval} (hlast : b ≤ last.lo)
    (hrs : ∀ r ∈ rs, b ≤ r.lo) : ∀ y ∈ mergeFrom last rs, b ≤ y.lo := by
  induction rs generalizing last with
  | nil => simpa [mergeFrom] using hlast
  | cons r rs ih =>
    obtain ⟨hr, hrs⟩ := List.forall_mem_cons.1 hrs
    rw [mergeFrom]
    split
    · exact ih hlast hrs
    · exact List.forall_mem_cons.2 ⟨hlast, ih hr hrs⟩

theorem Separated.mergeFrom {last : Interval} {rs : List Interval} (hlast : last.lo ≤ last.hi)
    (hrs : ∀ r ∈ rs, r.lo ≤ r.hi) (h : rs.Pairwise fun a b => a.lo ≤ b.lo) :
    Separated (mergeFrom last rs) := by
  induction rs generalizing last with
  | nil => exact .singleton hlast
  | cons r rs ih =>
    obtain ⟨hr, hrs⟩ := List.forall_mem_cons.1 hrs
    obtain ⟨hle, h⟩ := List.pairwise_cons.1 h
    rw [CharSet.mergeFrom]
    split
    · have hjoined : last.lo ≤ max last.hi r.hi := Nat.le_trans hlast (Nat.le_max_left ..)
      exact ih hjoined hrs h
    · next hlt =>
      refine .cons hlast (fun y hy => ?_) (ih hr hrs h)
      exact Nat.lt_of_lt_of_le (Nat.lt_of_not_le hlt) (lo_mergeFrom (Nat.le_refl _) hle y hy)

theorem Separated.merged (rs : List Interval) : Separated (merged rs) := by
  have hnonempty : ∀ r ∈ Interval.sort (rs.filter fun r => r.lo ≤ r.hi), r.lo ≤ r.hi := by
    intro r hr
    simpa using (List.mem_filter.1 (Interval.mem_sort.1 hr)).2
  have hsorted := Interval.pairwise_sort (rs.filter fun r => r.lo ≤ r.hi)
  rw [CharSet.merged]
  generalize Interval.sort (rs.filter fun r => r.lo ≤ r.hi) = ss at hnonempty hsorted
  cases ss with
  | nil => exact .nil
  | cons s ss =>
    obtain ⟨hs, hss⟩ := List.forall_mem_cons.1 hnonempty
    exact .mergeFrom hs hss hsorted.of_cons

theorem mem_mergeFrom {last : Interval} {rs : List Interval} {c : Nat}
    (h : ∀ r ∈ rs, last.lo ≤ r.lo) (hlast : last.lo ≤ last.hi)
    (hsorted : rs.Pairwise fun a b => a.lo ≤ b.lo) (hrs : ∀ r ∈ rs, r.lo ≤ r.hi) :
    (∃ y ∈ mergeFrom last rs, y.lo ≤ c ∧ c ≤ y.hi) ↔
      ∃ y ∈ last :: rs, y.lo ≤ c ∧ c ≤ y.hi := by
  induction rs generalizing last with
  | nil => exact Iff.rfl
  | cons r rs ih =>
    obtain ⟨hle, h⟩ := List.forall_mem_cons.1 h
    obtain ⟨hr, hrs⟩ := List.forall_mem_cons.1 hrs
    obtain ⟨hfirst, hsorted⟩ := List.pairwise_cons.1 hsorted
    rw [mergeFrom]
    split
    · have hjoined : last.lo ≤ max last.hi r.hi := Nat.le_trans hlast (Nat.le_max_left ..)
      have hcontains : (last.lo ≤ c ∧ c ≤ max last.hi r.hi) ↔
          (last.lo ≤ c ∧ c ≤ last.hi) ∨ (r.lo ≤ c ∧ c ≤ r.hi) := by
        omega
      rw [@ih ⟨last.lo, max last.hi r.hi⟩ h hjoined hsorted hrs]
      simp only [List.mem_cons, exists_eq_or_imp, hcontains, or_assoc]
    · have hrest := ih hfirst hr hsorted hrs
      simp only [List.mem_cons, exists_eq_or_imp] at hrest ⊢
      rw [hrest]

theorem mem_merged {rs : List Interval} {c : Nat} :
    (∃ y ∈ merged rs, y.lo ≤ c ∧ c ≤ y.hi) ↔ ∃ r ∈ rs, r.lo ≤ c ∧ c ≤ r.hi := by
  have hmem (y : Interval) : y ∈ Interval.sort (rs.filter fun r => r.lo ≤ r.hi) ↔
      y ∈ rs ∧ y.lo ≤ y.hi := by
    rw [Interval.mem_sort, List.mem_filter, decide_eq_true_eq]
  have hiff : (∃ r ∈ rs, r.lo ≤ c ∧ c ≤ r.hi) ↔
      ∃ y ∈ Interval.sort (rs.filter fun r => r.lo ≤ r.hi), y.lo ≤ c ∧ c ≤ y.hi := by
    refine exists_congr fun y => ?_
    rw [hmem, and_assoc]
    exact and_congr_right fun _ => ⟨fun hc => ⟨by omega, hc⟩, And.right⟩
  have hnonempty := fun y hy => ((hmem y).1 hy).2
  have hsorted := Interval.pairwise_sort (rs.filter fun r => r.lo ≤ r.hi)
  rw [hiff, merged]
  generalize Interval.sort (rs.filter fun r => r.lo ≤ r.hi) = ss at hnonempty hsorted
  cases ss with
  | nil => exact Iff.rfl
  | cons s ss =>
    obtain ⟨hs, hss⟩ := List.forall_mem_cons.1 hnonempty
    obtain ⟨hle, hsorted⟩ := List.pairwise_cons.1 hsorted
    exact mem_mergeFrom hle hs hsorted hss

def maxCodePoint : Nat := 0x10FFFF

def gaps (next : Nat) : List Interval → List Interval
  | [] => if next ≤ maxCodePoint then [⟨next, maxCodePoint⟩] else []
  | r :: rs => if next < r.lo then ⟨next, r.lo - 1⟩ :: gaps (r.hi + 1) rs else gaps (r.hi + 1) rs

theorem lo_gaps {next : Nat} {rs : List Interval} (h : Separated rs)
    (hnext : ∀ r ∈ rs, next ≤ r.lo) :
    ∀ g ∈ gaps next rs, next ≤ g.lo := by
  induction rs generalizing next with
  | nil =>
    intro g hg
    rw [gaps] at hg
    split at hg
    · obtain rfl := List.mem_singleton.1 hg
      exact Nat.le_refl next
    · cases hg
  | cons r rs ih =>
    have hr := h.nonempty r List.mem_cons_self
    have hlo := hnext r List.mem_cons_self
    obtain ⟨hapart, -⟩ := List.pairwise_cons.1 h.apart
    have hrest : ∀ g ∈ gaps (r.hi + 1) rs, next ≤ g.lo := by
      intro g hg
      have := ih h.of_cons (fun x hx => Nat.le_of_lt (hapart x hx)) g hg
      omega
    rw [gaps]
    split
    · exact List.forall_mem_cons.2 ⟨Nat.le_refl _, hrest⟩
    · exact hrest

theorem Separated.gaps {next : Nat} {rs : List Interval} (h : Separated rs)
    (hnext : ∀ r ∈ rs, next ≤ r.lo) :
    Separated (gaps next rs) := by
  induction rs generalizing next with
  | nil =>
    rw [CharSet.gaps]
    split
    · next hle => exact .singleton hle
    · exact .nil
  | cons r rs ih =>
    have hr := h.nonempty r List.mem_cons_self
    obtain ⟨hapart, -⟩ := List.pairwise_cons.1 h.apart
    have hrest : ∀ x ∈ rs, r.hi + 1 ≤ x.lo := fun x hx => Nat.le_of_lt (hapart x hx)
    have hgaps := ih h.of_cons hrest
    rw [CharSet.gaps]
    split
    · next hlt =>
      have hbefore : next ≤ r.lo - 1 := by omega
      refine .cons hbefore (fun g hg => ?_) hgaps
      have := lo_gaps h.of_cons hrest g hg
      simp only
      omega
    · exact hgaps

end CharSet
end PredictiveParsing
