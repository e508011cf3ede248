import PredictiveParsing.Lookahead.SequenceOrder

/-!
# Sets of token sequences

The sets that lookahead is computed with. A member is a sequence of token kinds; in a set computed
for a bound `k` no member is longer, and one that is shorter means that the text may end there. The
set without members stands for what cannot be derived, the set of the empty sequence for what
derives nothing but may end. Members are kept in lexicographic order, so that equal sets are equal
lists.
-/
namespace PredictiveParsing

structure SequenceSet where
  seqs : List (List Nat)
  increasing : SequenceSet.Increasing seqs
deriving DecidableEq

namespace SequenceSet

def empty : SequenceSet := ⟨[], .nil⟩

instance : Inhabited SequenceSet := ⟨empty⟩

def single (s : List Nat) : SequenceSet := ⟨[s], List.pairwise_singleton _ _⟩

def epsilon : SequenceSet := single []

def token (kind : Nat) : SequenceSet := single [kind]

instance : Membership (List Nat) SequenceSet := ⟨fun a s => s ∈ a.seqs⟩

instance (s : List Nat) (a : SequenceSet) : Decidable (s ∈ a) :=
  inferInstanceAs (Decidable (s ∈ a.seqs))

theorem ext {a b : SequenceSet} (h : ∀ s, s ∈ a ↔ s ∈ b) : a = b := by
  obtain ⟨ss, hss⟩ := a
  obtain ⟨ts, hts⟩ := b
  obtain rfl := hss.ext hts h
  rfl

def size (a : SequenceSet) : Nat := a.seqs.length

def isEmpty (a : SequenceSet) : Bool := a.seqs.isEmpty

def contains (a : SequenceSet) (s : List Nat) : Bool := s ∈ a

def containsEpsilon (a : SequenceSet) : Bool := a.contains []

def union (a b : SequenceSet) : SequenceSet := ⟨mergeSeqs a.seqs b.seqs, a.increasing.mergeSeqs b.increasing⟩

def insert (a : SequenceSet) (s : List Nat) : SequenceSet := (single s).union a

def ofSeqs (ss : List (List Nat)) : SequenceSet := ss.foldr (fun s a => a.insert s) empty

@[simp] theorem not_mem_empty (s : List Nat) : ¬ s ∈ empty := List.not_mem_nil

@[simp] theorem mem_single {s t : List Nat} : s ∈ single t ↔ s = t := List.mem_singleton

@[simp] theorem mem_epsilon {s : List Nat} : s ∈ epsilon ↔ s = [] := mem_single

@[simp] theorem mem_token {s : List Nat} {kind : Nat} : s ∈ token kind ↔ s = [kind] := mem_single

@[simp] theorem mem_union {a b : SequenceSet} {s : List Nat} : s ∈ a.union b ↔ s ∈ a ∨ s ∈ b :=
  mem_mergeSeqs

@[simp] theorem mem_insert {a : SequenceSet} {s t : List Nat} : s ∈ a.insert t ↔ s = t ∨ s ∈ a := by
  rw [insert, mem_union, mem_single]

@[simp] theorem mem_ofSeqs {ss : List (List Nat)} {s : List Nat} : s ∈ ofSeqs ss ↔ s ∈ ss := by
  induction ss with
  | nil => simp [ofSeqs]
  | cons t ts ih => rw [ofSeqs, List.foldr_cons, mem_insert, List.mem_cons, ← ih, ofSeqs]

/-- What `s` followed by each member of `b` begins with, up to `k` tokens. A sequence that has `k`
tokens already asks nothing of `b`. -/
def extensions (k : Nat) (b : SequenceSet) (s : List Nat) : List (List Nat) :=
  if k ≤ s.length then [s.take k] else b.seqs.map fun t => s ++ t.take (k - s.length)

def concat (a b : SequenceSet) (k : Nat) : SequenceSet := ofSeqs (a.seqs.flatMap (extensions k b))

def truncate (a : SequenceSet) (k : Nat) : SequenceSet := ofSeqs (a.seqs.map (·.take k))

theorem mem_seqs {a : SequenceSet} {s : List Nat} : s ∈ a.seqs ↔ s ∈ a := Iff.rfl

theorem mem_concat {a b : SequenceSet} {k : Nat} {x : List Nat} :
    x ∈ a.concat b k ↔ ∃ s ∈ a, x ∈ extensions k b s := by
  simp only [concat, mem_ofSeqs, List.mem_flatMap, mem_seqs]

@[simp] theorem mem_truncate {a : SequenceSet} {k : Nat} {x : List Nat} :
    x ∈ a.truncate k ↔ ∃ s ∈ a, s.take k = x := by
  simp only [truncate, mem_ofSeqs, List.mem_map, mem_seqs]

def kleeneFrom (a : SequenceSet) (k : Nat) : (fuel : Nat) → SequenceSet → SequenceSet
  | 0, out => out
  | fuel + 1, out =>
    let next := out.union (out.concat a k)
    if next = out then out else kleeneFrom a k fuel next

/-- All concatenations of members of `a`, cut to `k` tokens. As an empty member adds nothing, `k`
members are enough to fill `k` tokens. -/
def kleene (a : SequenceSet) (k : Nat) : SequenceSet := kleeneFrom a k k epsilon

def sharedStart? (s t : List Nat) : Option (List Nat) :=
  let n := min s.length t.length
  if s.take n = t.take n then some (s.take n) else none

/-- The first sequence of one of the sets that begins one of the other. Upcoming tokens that begin
with it do not tell the sets apart. -/
def overlap? (a b : SequenceSet) : Option (List Nat) :=
  a.seqs.findSome? fun s => b.seqs.findSome? (sharedStart? s)

def accepts (a : SequenceSet) (upcoming : List Nat) : Bool := a.seqs.any (·.isPrefixOf upcoming)

def compareSeqs (a b : SequenceSet) : Ordering := compareOn seqs a b

end SequenceSet
end PredictiveParsing
