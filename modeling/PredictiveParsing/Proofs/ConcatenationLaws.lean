import PredictiveParsing.Proofs.BoundedConcatenation

/-!
# Laws of concatenation

Concatenation cut to a bound is monotone and distributes over unions, the set of the empty sequence
is a unit for it up to cutting, and operands may be cut first. It is associative, and a set computed
with a larger bound can be cut to a smaller one, where there is something to go on with: a member
that fills the bound asks nothing of what comes after it, and thus stays even if nothing can. Main
statement: `concat_laws`.
-/
namespace PredictiveParsing.SequenceSet

variable {a a' b b' c : SequenceSet} {k K : Nat}

def Subset (a b : SequenceSet) : Prop := ∀ x ∈ a, x ∈ b

theorem Subset.concat (ha : a.Subset a') (hb : b.Subset b') (k : Nat) :
    (a.concat b k).Subset (a'.concat b' k) := by
  intro x hx
  obtain ⟨s, hs, hx⟩ := mem_concat_iff.1 hx
  refine mem_concat_iff.2 ⟨s, ha s hs, hx.imp_right ?_⟩
  rintro ⟨t, ht, rfl⟩
  exact ⟨t, hb t ht, rfl⟩

theorem Subset.kleene (ha : a.Subset a') (k : Nat) : (a.kleene k).Subset (a'.kleene k) := by
  intro x hx
  obtain ⟨ws, hws, rfl⟩ := mem_kleene.1 hx
  exact mem_kleene.2 ⟨ws, fun w hw => ha w (hws w hw), rfl⟩

theorem Subset.union (ha : a.Subset a') (hb : b.Subset b') : (a.union b).Subset (a'.union b') := by
  intro x hx
  rw [mem_union] at hx ⊢
  exact hx.imp (ha x) (hb x)

def Nonempty (a : SequenceSet) : Prop := ∃ s, s ∈ a

theorem Nonempty.concat (ha : a.Nonempty) (hb : b.Nonempty) (k : Nat) :
    (a.concat b k).Nonempty := by
  obtain ⟨s, hs⟩ := ha
  obtain ⟨t, ht⟩ := hb
  exact ⟨_, append_mem_concat hs ht k⟩

theorem nonempty_kleene (a : SequenceSet) (k : Nat) : (a.kleene k).Nonempty :=
  ⟨_, mem_kleene.2 ⟨[], by simp, rfl⟩⟩

theorem mem_concat_of_nonempty (hb : b.Nonempty) {x : List Nat} :
    x ∈ a.concat b k ↔ ∃ s ∈ a, ∃ t ∈ b, (s ++ t).take k = x := by
  rw [mem_concat_iff]
  refine exists_congr fun s => and_congr_right fun _ => ?_
  constructor
  · intro h
    rcases h with ⟨hfull, hx⟩ | h
    · obtain ⟨t, ht⟩ := hb
      exact ⟨t, ht, by rw [List.take_append_of_le_length hfull, hx]⟩
    · exact h
  · exact .inr

/-- The members of `a`, cut to `k` tokens, are members of `b`. -/
def CutsInto (k : Nat) (a b : SequenceSet) : Prop := ∀ s ∈ a, s.take k ∈ b

def CutsOnto (k : Nat) (a b : SequenceSet) : Prop := ∀ t ∈ b, ∃ s ∈ a, s.take k = t

theorem truncate_eq (hinto : CutsInto k a b) (honto : CutsOnto k a b) : a.truncate k = b := by
  apply SequenceSet.ext
  intro t
  rw [mem_truncate]
  constructor
  · rintro ⟨s, hs, rfl⟩
    exact hinto s hs
  · exact honto t

theorem CutsInto.concat (hk : k ≤ K) (ha : CutsInto k a a') (hb : CutsInto k b b') :
    CutsInto k (a.concat b K) (a'.concat b' k) := by
  intro x hx
  obtain ⟨s, hs, ⟨hlen, rfl⟩ | ⟨t, ht, rfl⟩⟩ := mem_concat_iff.1 hx
  · rw [List.take_take, Nat.min_eq_left hk]
    have hfull : (s.take k).length = k := by
      rw [List.length_take]
      omega
    refine mem_concat_iff.2 ⟨s.take k, ha s hs, .inl ⟨Nat.le_of_eq hfull.symm, ?_⟩⟩
    rw [List.take_take, Nat.min_self]
  · rw [List.take_take, Nat.min_eq_left hk]
    exact take_append_mem_concat (ha s hs) (hb t ht)

theorem CutsOnto.concat (hk : k ≤ K) (ha : CutsOnto k a a') (hb : CutsOnto k b b')
    (hgo : b.Nonempty) : CutsOnto k (a.concat b K) (a'.concat b' k) := by
  intro x hx
  obtain ⟨s, t, hs, ht, rfl⟩ := exists_of_mem_concat ha hb hgo hx
  refine ⟨_, append_mem_concat hs ht K, ?_⟩
  rw [List.take_take, Nat.min_eq_left hk]

theorem CutsInto.kleene (hk : k ≤ K) (ha : CutsInto k a a') :
    CutsInto k (a.kleene K) (a'.kleene k) := by
  intro x hx
  obtain ⟨ws, hws, rfl⟩ := mem_kleene.1 hx
  rw [List.take_take, Nat.min_eq_left hk]
  exact take_flatten_mem_kleene fun w hw => ha w (hws w hw)

theorem CutsOnto.kleene (hk : k ≤ K) (ha : CutsOnto k a a') :
    CutsOnto k (a.kleene K) (a'.kleene k) := by
  intro x hx
  obtain ⟨_, ⟨ws, hws, rfl⟩, rfl⟩ := exists_of_mem_kleene ha hx
  refine ⟨_, mem_kleene.2 ⟨ws, hws, rfl⟩, ?_⟩
  rw [List.take_take, Nat.min_eq_left hk]

theorem CutsInto.union (ha : CutsInto k a a') (hb : CutsInto k b b') :
    CutsInto k (a.union b) (a'.union b') := by
  intro x hx
  rw [mem_union] at hx ⊢
  exact hx.imp (ha x) (hb x)

theorem CutsOnto.union (ha : CutsOnto k a a') (hb : CutsOnto k b b') :
    CutsOnto k (a.union b) (a'.union b') := by
  intro x hx
  rcases mem_union.1 hx with hx | hx
  · obtain ⟨s, hs, rfl⟩ := ha x hx
    exact ⟨s, mem_union.2 (.inl hs), rfl⟩
  · obtain ⟨s, hs, rfl⟩ := hb x hx
    exact ⟨s, mem_union.2 (.inr hs), rfl⟩

theorem cutsInto_truncate (a : SequenceSet) (k : Nat) : CutsInto k a (a.truncate k) :=
  fun s hs => mem_truncate.2 ⟨s, hs, rfl⟩

theorem cutsOnto_truncate (a : SequenceSet) (k : Nat) : CutsOnto k a (a.truncate k) :=
  fun _ ht => mem_truncate.1 ht

theorem union_concat (a b c : SequenceSet) (k : Nat) :
    (a.union b).concat c k = (a.concat c k).union (b.concat c k) := by
  apply SequenceSet.ext
  intro x
  simp only [mem_concat, mem_union, or_and_right, exists_or]

theorem mem_extensions_union {s x : List Nat} :
    x ∈ extensions k (b.union c) s ↔ x ∈ extensions k b s ∨ x ∈ extensions k c s := by
  rw [extensions, extensions, extensions]
  split
  · rw [or_self]
  · simp only [List.mem_map, mem_seqs, mem_union, or_and_right, exists_or]

theorem concat_union (a b c : SequenceSet) (k : Nat) :
    a.concat (b.union c) k = (a.concat b k).union (a.concat c k) := by
  apply SequenceSet.ext
  intro x
  simp only [mem_concat, mem_union, mem_extensions_union, and_or_left, exists_or]

theorem concat_truncate (a b : SequenceSet) (k : Nat) :
    (a.truncate k).concat (b.truncate k) k = a.concat b k := by
  apply SequenceSet.ext
  intro x
  constructor
  · intro hx
    obtain ⟨s', hs', hx⟩ := mem_concat_iff.1 hx
    obtain ⟨s, hs, hcut⟩ := mem_truncate.1 hs'
    rw [← hcut] at hx
    rcases hx with ⟨hfull, hx⟩ | ⟨t', ht', hx⟩
    · rw [List.take_take, Nat.min_self] at hx
      have hlength : k ≤ s.length := Nat.le_trans hfull (List.length_take_le' ..)
      exact mem_concat_iff.2 ⟨s, hs, .inl ⟨hlength, hx⟩⟩
    · obtain ⟨t, ht, hcut'⟩ := mem_truncate.1 ht'
      rw [← hx, ← hcut', take_append_take, take_take_append]
      exact append_mem_concat hs ht k
  · intro hx
    have hcut := (cutsInto_truncate a k).concat (Nat.le_refl k) (cutsInto_truncate b k) x hx
    rwa [List.take_of_length_le (length_le_of_mem_concat hx)] at hcut

/-- Nothing is asked of the middle operand: if it is empty, what is left on both sides is what fills
the bound at once. -/
theorem concat_assoc (a b : SequenceSet) (hc : c.Nonempty) (k : Nat) :
    (a.concat b k).concat c k = a.concat (b.concat c k) k := by
  apply SequenceSet.ext
  intro x
  constructor
  · intro hx
    obtain ⟨y, hy, u, hu, hx⟩ := (mem_concat_of_nonempty hc).1 hx
    obtain ⟨s, hs, ⟨hfull, hy⟩ | ⟨t, ht, hy⟩⟩ := mem_concat_iff.1 hy
    · -- `s` fills the bound, so that neither `b` nor `c` matters
      rw [← hy, take_take_append, List.take_append_of_le_length hfull] at hx
      exact mem_concat_iff.2 ⟨s, hs, .inl ⟨hfull, hx⟩⟩
    · have hall := append_mem_concat hs (append_mem_concat ht hu k) k
      rw [← hy, take_take_append, List.append_assoc] at hx
      rwa [take_append_take, hx] at hall
  · intro hx
    obtain ⟨s, hs, ⟨hfull, hx⟩ | ⟨y, hy, hx⟩⟩ := mem_concat_iff.1 hx
    · obtain ⟨u, hu⟩ := hc
      have hkept : s.take k ∈ a.concat b k := mem_concat_iff.2 ⟨s, hs, .inl ⟨hfull, rfl⟩⟩
      have hall := append_mem_concat hkept hu k
      rwa [take_take_append, List.take_append_of_le_length hfull, hx] at hall
    · obtain ⟨t, ht, u, hu, hy⟩ := (mem_concat_of_nonempty hc).1 hy
      have hall := append_mem_concat (append_mem_concat hs ht k) hu k
      rw [← hy, take_append_take] at hx
      rwa [take_take_append, List.append_assoc, hx] at hall

example : ((token 1).concat (token 2) 2).concat empty 2 = single [1, 2] ∧
    (token 1).concat ((token 2).concat empty 2) 2 = empty := by decide

theorem truncate_concat (hk : k ≤ K) (a : SequenceSet) (hb : b.Nonempty) :
    (a.concat b K).truncate k = (a.truncate k).concat (b.truncate k) k := by
  apply truncate_eq
  · exact (cutsInto_truncate a k).concat hk (cutsInto_truncate b k)
  · exact (cutsOnto_truncate a k).concat hk (cutsOnto_truncate b k) hb

theorem truncate_concat_subset (hk : k ≤ K) (a b : SequenceSet) :
    ((a.concat b K).truncate k).Subset (a.concat b k) := by
  intro x hx
  obtain ⟨y, hy, hcut⟩ := mem_truncate.1 hx
  rw [← hcut, ← concat_truncate]
  exact (cutsInto_truncate a k).concat hk (cutsInto_truncate b k) y hy

theorem epsilon_concat (hk : 1 ≤ k) (a : SequenceSet) : epsilon.concat a k = a.truncate k := by
  have hroom : ¬ k ≤ 0 := Nat.not_le.2 hk
  apply SequenceSet.ext
  intro x
  simp only [mem_concat_iff, mem_epsilon, exists_eq_left, List.length_nil, hroom, false_and,
    false_or, List.nil_append, mem_truncate]

theorem concat_epsilon (a : SequenceSet) (k : Nat) : a.concat epsilon k = a.truncate k := by
  have hepsilon : epsilon.Nonempty := ⟨[], mem_epsilon.2 rfl⟩
  apply SequenceSet.ext
  intro x
  simp only [mem_concat_of_nonempty hepsilon, mem_epsilon, exists_eq_left, List.append_nil,
    mem_truncate]

/-- The laws by which sets that were computed in different orders and with different bounds fit
together. -/
theorem concat_laws (hk : k ≤ K) (a b c : SequenceSet) :
    (a.union b).concat c k = (a.concat c k).union (b.concat c k) ∧
      a.concat (b.union c) k = (a.concat b k).union (a.concat c k) ∧
      (∀ a' b', a.Subset a' → b.Subset b' → (a.concat b k).Subset (a'.concat b' k)) ∧
      (c.Nonempty → (a.concat b k).concat c k = a.concat (b.concat c k) k) ∧
      (b.Nonempty → (a.concat b K).truncate k = (a.truncate k).concat (b.truncate k) k) ∧
      (1 ≤ k → epsilon.concat a k = a.truncate k ∧ a.concat epsilon k = a.truncate k) ∧
      ((a.concat b K).truncate k).Subset (a.concat b k) := by
  refine ⟨union_concat a b c k, concat_union a b c k, ?_, ?_, ?_, ?_, ?_⟩
  · intro a' b' ha hb
    exact ha.concat hb k
  · intro hc
    exact concat_assoc a b hc k
  · intro hb
    exact truncate_concat hk a hb
  · intro hroom
    exact ⟨epsilon_concat hroom a, concat_epsilon a k⟩
  · exact truncate_concat_subset hk a b

theorem concat_laws_optionalWord :
    let a := ofSeqs [[], [1]]
    let b := ofSeqs [[2, 3], [4]]
    let c := token 5
    1 ≤ 2 ∧ b.Nonempty ∧ c.Nonempty ∧
      (a.concat b 1).concat c 1 = a.concat (b.concat c 1) 1 ∧
      (a.concat b 2).truncate 1 = (a.truncate 1).concat (b.truncate 1) 1 ∧
      epsilon.concat a 1 = a.truncate 1 := by
  intro a b c
  have hk : 1 ≤ 2 := by decide
  have hb : b.Nonempty := ⟨[4], by decide⟩
  have hc : c.Nonempty := ⟨[5], by decide⟩
  obtain ⟨-, -, -, hassoc, hcut, hunit, -⟩ := concat_laws hk a b c
  exact ⟨hk, hb, hc, hassoc hc, hcut hb, (hunit (by decide)).1⟩

end PredictiveParsing.SequenceSet
