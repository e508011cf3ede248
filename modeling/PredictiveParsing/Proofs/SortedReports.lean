import PredictiveParsing.Diagnostic

/-!
# Sorted reports

The order of reports is total and tells any two different reports apart. So the sorted list is the
same for every order in which the same reports are found, with each as often as it was found.
Whether there is an error among them can be read off the sorted list.
-/
namespace PredictiveParsing

open Std

namespace Position

theorem compare_eq_compareLex :
    (compare : Position → Position → Ordering) = compareLex (compareOn line) (compareOn column) := by
  funext ⟨line, column⟩ ⟨line', column'⟩
  change (compare line line').then ((compare column column').then .eq) = _
  rw [Ordering.then_eq]
  rfl

instance : TransOrd Position := by
  rw [TransOrd, compare_eq_compareLex]
  infer_instance

theorem eq_of_compare_eq {p q : Position} (h : compare p q = .eq) : p = q := by
  rw [compare_eq_compareLex, compareLex_eq_eq] at h
  obtain ⟨line, column⟩ := p
  obtain ⟨line', column'⟩ := q
  obtain rfl : line = line' := LawfulEqOrd.eq_of_compare h.1
  obtain rfl : column = column' := LawfulEqOrd.eq_of_compare h.2
  rfl

end Position

namespace Span

theorem compare_eq_compareLex :
    (compare : Span → Span → Ordering) = compareLex (compareOn start) (compareOn stop) := by
  funext ⟨start, stop⟩ ⟨start', stop'⟩
  change (compare start start').then ((compare stop stop').then .eq) = _
  rw [Ordering.then_eq]
  rfl

instance : TransOrd Span := by
  rw [TransOrd, compare_eq_compareLex]
  infer_instance

theorem eq_of_compare_eq {s t : Span} (h : compare s t = .eq) : s = t := by
  rw [compare_eq_compareLex, compareLex_eq_eq] at h
  obtain ⟨start, stop⟩ := s
  obtain ⟨start', stop'⟩ := t
  obtain rfl : start = start' := Position.eq_of_compare_eq h.1
  obtain rfl : stop = stop' := Position.eq_of_compare_eq h.2
  rfl

end Span

instance : TransOrd Severity := inferInstanceAs (TransCmp (compareOn Severity.ctorIdx))

theorem Severity.eq_of_compare_eq {s t : Severity} (h : compare s t = .eq) : s = t := by
  have hindex : s.ctorIdx = t.ctorIdx := LawfulEqOrd.eq_of_compare h
  rw [← Severity.ofNat_ctorIdx s, hindex, Severity.ofNat_ctorIdx]

namespace Diagnostic

instance : TransOrd Kind := inferInstanceAs (TransCmp (compareOn Kind.ctorIdx))

theorem Kind.eq_of_compare_eq {k l : Kind} (h : compare k l = .eq) : k = l := by
  have hindex : k.ctorIdx = l.ctorIdx := LawfulEqOrd.eq_of_compare h
  rw [← Kind.ofNat_ctorIdx k, hindex, Kind.ofNat_ctorIdx]

instance : TransCmp order :=
  inferInstanceAs (TransCmp (compareLex (compareOn span)
    (compareLex (compareOn kind) (compareLex (compareOn message) (compareOn severity)))))

theorem eq_of_order_eq {a b : Diagnostic} (h : a.order b = .eq) : a = b := by
  simp only [order, Ordering.then_eq_eq] at h
  obtain ⟨severity, kind, span, message⟩ := a
  obtain ⟨severity', kind', span', message'⟩ := b
  obtain rfl : span = span' := Span.eq_of_compare_eq h.1
  obtain rfl : kind = kind' := Kind.eq_of_compare_eq h.2.1
  obtain rfl : message = message' := LawfulEqOrd.eq_of_compare h.2.2.1
  obtain rfl : severity = severity' := Severity.eq_of_compare_eq h.2.2.2
  rfl

theorem sorted_perm (ds : List Diagnostic) : (sorted ds).Perm ds := List.mergeSort_perm ds _

theorem pairwise_sorted (ds : List Diagnostic) :
    (sorted ds).Pairwise fun a b => (a.order b).isLE := by
  apply List.pairwise_mergeSort
  · exact fun a b c => TransCmp.isLE_trans
  · intro a b
    have hswap : b.order a = (a.order b).swap := OrientedCmp.eq_swap
    rw [hswap]
    cases a.order b <;> rfl

theorem sorted_eq_of_perm {ds es : List Diagnostic} (h : ds.Perm es) : sorted ds = sorted es := by
  refine List.Perm.eq_of_pairwise ?_ (pairwise_sorted ds) (pairwise_sorted es)
    ((sorted_perm ds).trans (h.trans (sorted_perm es).symm))
  intro a b _ _ hab hba
  exact eq_of_order_eq (OrientedCmp.isLE_antisymm hab hba)

theorem anyError_iff {ds : List Diagnostic} :
    anyError ds = true ↔ ∃ d ∈ ds, d.severity = .error := by
  simp [anyError]

end Diagnostic
end PredictiveParsing
