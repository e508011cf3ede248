import PredictiveParsing.Ascending

/-!
# Increasing lists of sequences

Sequences are compared lexicographically, a sequence before those that it begins. Two increasing
lists are merged without looking further than where one of them ends. Main statements: merging loses
and adds nothing (`mem_mergeSeqs`) and keeps the order, and increasing lists with the same members
are equal (`Increasing.ext`).
-/
namespace PredictiveParsing.SequenceSet

/-- Puts `s` in front of the members of an increasing list that come after it. What comes after `s`
is handed on to `rest`; a second `s` is left out. -/
def mergeFrom (s : List Nat) (rest : List (List Nat) → List (List Nat)) :
    List (List Nat) → List (List Nat)
  | [] => s :: rest []
  | t :: ts =>
    if s < t then s :: rest (t :: ts)
    else if s = t then s :: rest ts
    else t :: mergeFrom s rest ts

def mergeSeqs : List (List Nat) → List (List Nat) → List (List Nat)
  | [], ts => ts
  | s :: ss, ts => mergeFrom s (mergeSeqs ss) ts

theorem mem_mergeFrom {s x : List Nat} {ss : List (List Nat)} {rest : List (List Nat) → List (List Nat)}
    (h : ∀ ts, x ∈ rest ts ↔ x ∈ ss ∨ x ∈ ts) (ts : List (List Nat)) :
    x ∈ mergeFrom s rest ts ↔ x ∈ s :: ss ∨ x ∈ ts := by
  induction ts with
  | nil => simp [mergeFrom, h]
  | cons t ts ih =>
    rw [mergeFrom]
    split
    · simp only [List.mem_cons, h, or_assoc]
    · split
      · next heq => subst heq; simp only [List.mem_cons, h]; grind
      · simp only [List.mem_cons, ih]; grind

theorem mem_mergeSeqs {x : List Nat} {ss ts : List (List Nat)} :
    x ∈ mergeSeqs ss ts ↔ x ∈ ss ∨ x ∈ ts := by
  induction ss generalizing ts with
  | nil => simp [mergeSeqs]
  | cons s ss ih => exact mem_mergeFrom (fun _ => ih) ts

abbrev Increasing (ss : List (List Nat)) : Prop := ss.Pairwise (· < ·)

theorem lt_of_not_lt_of_ne {s t : List Nat} (h : ¬ s < t) (hne : s ≠ t) : t < s := by
  rcases List.le_iff_lt_or_eq.1 (List.not_lt.1 h) with h | h
  · exact h
  · exact absurd h.symm hne

theorem Increasing.mergeFrom {s : List Nat} {ss : List (List Nat)}
    {rest : List (List Nat) → List (List Nat)} (hs : ∀ x ∈ ss, s < x)
    (hmem : ∀ ts x, x ∈ rest ts ↔ x ∈ ss ∨ x ∈ ts)
    (hrest : ∀ ts, Increasing ts → Increasing (rest ts)) {ts : List (List Nat)} (hts : Increasing ts) :
    Increasing (mergeFrom s rest ts) := by
  induction ts with
  | nil =>
    refine List.pairwise_cons.2 ⟨fun x hx => ?_, hrest [] .nil⟩
    rcases (hmem _ _).1 hx with hx | hx
    · exact hs x hx
    · simp at hx
  | cons t ts ih =>
    obtain ⟨ht, hts'⟩ := List.pairwise_cons.1 hts
    rw [SequenceSet.mergeFrom]
    split
    · next hlt =>
      refine List.pairwise_cons.2 ⟨fun x hx => ?_, hrest _ hts⟩
      rcases (hmem _ _).1 hx with hx | hx
      · exact hs x hx
      · rcases List.mem_cons.1 hx with rfl | hx
        · exact hlt
        · exact List.lt_trans hlt (ht x hx)
    · split
      · next heq =>
        refine List.pairwise_cons.2 ⟨fun x hx => ?_, hrest _ hts'⟩
        rcases (hmem _ _).1 hx with hx | hx
        · exact hs x hx
        · exact heq ▸ ht x hx
      · next hlt hne =>
        have hts_lt := lt_of_not_lt_of_ne hlt hne
        refine List.pairwise_cons.2 ⟨fun x hx => ?_, ih hts'⟩
        rcases (mem_mergeFrom (fun ts => hmem ts x) ts).1 hx with hx | hx
        · rcases List.mem_cons.1 hx with rfl | hx
          · exact hts_lt
          · exact List.lt_trans hts_lt (hs x hx)
        · exact ht x hx

theorem Increasing.mergeSeqs {ss ts : List (List Nat)} (hss : Increasing ss) (hts : Increasing ts) :
    Increasing (mergeSeqs ss ts) := by
  induction ss generalizing ts with
  | nil => exact hts
  | cons s ss ih =>
    obtain ⟨hs, hss⟩ := List.pairwise_cons.1 hss
    exact Increasing.mergeFrom hs (fun _ _ => mem_mergeSeqs) (fun _ => ih hss) hts

theorem Increasing.ext {ss ts : List (List Nat)} (hss : Increasing ss) (hts : Increasing ts)
    (h : ∀ x, x ∈ ss ↔ x ∈ ts) : ss = ts :=
  Ascending.eq_of_mem_iff List.lt_irrefl List.lt_trans hss hts h

end PredictiveParsing.SequenceSet
