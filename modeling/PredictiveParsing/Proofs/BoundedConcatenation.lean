import Mathlib.Data.List.Flatten
import Mathlib.Data.List.Perm.Subperm
import PredictiveParsing.Lookahead.SequenceSet

/-!
# Concatenation cut to a bound

What the members of a concatenation and of a closure are, where everything is cut to `k` tokens: the
beginnings of concatenated members. A member that fills the bound is one even if nothing can follow
it. A closure is computed in rounds as long as they add something; as `k` members are enough to fill
`k` tokens, no more than `k` rounds do. Main statements: `mem_concat_iff`, `mem_kleene` and
`kleene_exact`.
-/
namespace PredictiveParsing.SequenceSet

theorem take_take_append (k : Nat) (s t : List Nat) : (s.take k ++ t).take k = (s ++ t).take k := by
  rw [List.take_append, List.take_append, List.take_take, Nat.min_self, List.length_take]
  by_cases h : k ≤ s.length
  · rw [Nat.min_eq_left h, Nat.sub_self, Nat.sub_eq_zero_of_le h]
  · rw [Nat.min_eq_right (by omega)]

theorem take_append_take (k : Nat) (s t : List Nat) : (s ++ t.take k).take k = (s ++ t).take k := by
  rw [List.take_append, List.take_append, List.take_take, Nat.min_eq_left (by omega)]

theorem mem_extensions {k : Nat} {b : SequenceSet} {s x : List Nat} :
    x ∈ extensions k b s ↔
      k ≤ s.length ∧ s.take k = x ∨ ∃ t ∈ b, s.length < k ∧ (s ++ t).take k = x := by
  rw [extensions]
  split
  · next h =>
    rw [List.mem_singleton]
    constructor
    · rintro rfl
      exact .inl ⟨h, rfl⟩
    · rintro (⟨-, rfl⟩ | ⟨t, -, hlt, -⟩)
      · rfl
      · omega
  · next h =>
    have hcut (t : List Nat) : s ++ t.take (k - s.length) = (s ++ t).take k := by
      rw [List.take_append, List.take_of_length_le (by omega : s.length ≤ k)]
    simp only [List.mem_map, hcut]
    constructor
    · rintro ⟨t, ht, rfl⟩
      exact .inr ⟨t, ht, by omega, rfl⟩
    · rintro (⟨hle, -⟩ | ⟨t, ht, -, rfl⟩)
      · exact absurd hle h
      · exact ⟨t, ht, rfl⟩

/-- A member of a concatenation is the beginning of a member of each operand, one after the other,
or of a member of the first alone if that fills the bound. -/
theorem mem_concat_iff {a b : SequenceSet} {k : Nat} {x : List Nat} :
    x ∈ a.concat b k ↔ ∃ s ∈ a, k ≤ s.length ∧ s.take k = x ∨ ∃ t ∈ b, (s ++ t).take k = x := by
  rw [mem_concat]
  refine exists_congr fun s => and_congr_right fun _ => ?_
  rw [mem_extensions]
  constructor
  · rintro (h | ⟨t, ht, -, rfl⟩)
    · exact .inl h
    · exact .inr ⟨t, ht, rfl⟩
  · rintro (h | ⟨t, ht, rfl⟩)
    · exact .inl h
    · by_cases hle : k ≤ s.length
      · exact .inl ⟨hle, (List.take_append_of_le_length hle).symm⟩
      · exact .inr ⟨t, ht, by omega, rfl⟩

theorem exists_of_mem_concat {a b : SequenceSet} {k : Nat} {A B : List Nat → Prop}
    (ha : ∀ s ∈ a, ∃ u, A u ∧ u.take k = s) (hb : ∀ t ∈ b, ∃ v, B v ∧ v.take k = t)
    (hgo : ∃ v, B v) {x : List Nat} (hx : x ∈ a.concat b k) :
    ∃ u v, A u ∧ B v ∧ (u ++ v).take k = x := by
  obtain ⟨s, hs, hx⟩ := mem_concat_iff.1 hx
  obtain ⟨u, hu, rfl⟩ := ha s hs
  rcases hx with ⟨hlen, rfl⟩ | ⟨t, ht, rfl⟩
  · obtain ⟨v, hv⟩ := hgo
    have hfull : k ≤ u.length := Nat.le_trans hlen (List.length_take_le' ..)
    exact ⟨u, v, hu, hv, by
      rw [List.take_append_of_le_length hfull, List.take_take, Nat.min_self]⟩
  · obtain ⟨v, hv, rfl⟩ := hb t ht
    exact ⟨u, v, hu, hv, by rw [take_append_take, take_take_append]⟩

theorem append_mem_concat {a b : SequenceSet} {s t : List Nat} (hs : s ∈ a) (ht : t ∈ b) (k : Nat) :
    (s ++ t).take k ∈ a.concat b k :=
  mem_concat_iff.2 ⟨s, hs, .inr ⟨t, ht, rfl⟩⟩

theorem take_append_mem_concat {a b : SequenceSet} {k : Nat} {s t : List Nat} (hs : s.take k ∈ a)
    (ht : t.take k ∈ b) : (s ++ t).take k ∈ a.concat b k := by
  have h := append_mem_concat hs ht k
  rwa [take_append_take, take_take_append] at h

theorem length_le_of_mem_concat {a b : SequenceSet} {k : Nat} {x : List Nat}
    (h : x ∈ a.concat b k) :
    x.length ≤ k := by
  obtain ⟨s, -, ⟨-, rfl⟩ | ⟨t, -, rfl⟩⟩ := mem_concat_iff.1 h <;> exact List.length_take_le ..

/-- `x` is what at most `n` members of `a`, one after the other, begin with. -/
def Power (a : SequenceSet) (k n : Nat) (x : List Nat) : Prop :=
  ∃ ws : List (List Nat), ws.length ≤ n ∧ (∀ w ∈ ws, w ∈ a) ∧ ws.flatten.take k = x

theorem Power.mono {a : SequenceSet} {k m n : Nat} {x : List Nat} (h : Power a k m x)
    (hmn : m ≤ n) :
    Power a k n x := by
  obtain ⟨ws, hlen, hws, hx⟩ := h
  exact ⟨ws, Nat.le_trans hlen hmn, hws, hx⟩

theorem power_zero {a : SequenceSet} {k : Nat} {x : List Nat} : Power a k 0 x ↔ x ∈ epsilon := by
  rw [mem_epsilon]
  constructor
  · rintro ⟨ws, hlen, -, rfl⟩
    obtain rfl := List.eq_nil_of_length_eq_zero (Nat.le_zero.1 hlen)
    exact List.take_nil
  · rintro rfl
    exact ⟨[], Nat.le_refl _, by simp, List.take_nil⟩

theorem power_succ {a out : SequenceSet} {k n : Nat} (h : ∀ x, x ∈ out ↔ Power a k n x)
    (x : List Nat) :
    x ∈ out.union (out.concat a k) ↔ Power a k (n + 1) x := by
  rw [mem_union, h, mem_concat_iff]
  constructor
  · rintro (hx | ⟨s, hs, ⟨-, rfl⟩ | ⟨t, ht, rfl⟩⟩)
    · exact hx.mono (Nat.le_succ _)
    · obtain ⟨ws, hlen, hws, rfl⟩ := (h s).1 hs
      exact ⟨ws, Nat.le_succ_of_le hlen, hws, by rw [List.take_take, Nat.min_self]⟩
    · obtain ⟨ws, hlen, hws, rfl⟩ := (h s).1 hs
      refine ⟨ws ++ [t], by simpa using hlen, ?_, ?_⟩
      · intro w hw
        rcases List.mem_append.1 hw with hw | hw
        · exact hws w hw
        · exact List.mem_singleton.1 hw ▸ ht
      · rw [take_take_append, List.flatten_append, List.flatten_singleton]
  · rintro ⟨ws, hlen, hws, rfl⟩
    by_cases hn : ws.length ≤ n
    · exact .inl ⟨ws, hn, hws, rfl⟩
    · have hne : ws ≠ [] := by
        rintro rfl
        exact hn (Nat.zero_le _)
      have hsplit := List.dropLast_concat_getLast hne
      have hinit : Power a k n (ws.dropLast.flatten.take k) :=
        ⟨ws.dropLast, by rw [List.length_dropLast]; omega,
          fun w hw => hws w (List.dropLast_subset ws hw), rfl⟩
      refine .inr ⟨_, (h _).2 hinit, .inr ⟨ws.getLast hne, hws _ (List.getLast_mem hne), ?_⟩⟩
      have hflat : ws.flatten = ws.dropLast.flatten ++ ws.getLast hne := by
        rw [← List.flatten_concat, hsplit]
      rw [take_take_append, hflat]

theorem power_of_stable {a out : SequenceSet} {k n : Nat} (h : ∀ x, x ∈ out ↔ Power a k n x)
    (hstable : out.union (out.concat a k) = out) (m : Nat) (x : List Nat) :
    x ∈ out ↔ Power a k (n + m) x := by
  induction m generalizing x with
  | zero => exact h x
  | succ m ih =>
    rw [← Nat.add_assoc, ← power_succ ih, hstable]

theorem mem_kleeneFrom {a : SequenceSet} {k : Nat} (fuel : Nat) {out : SequenceSet} {n : Nat}
    (h : ∀ x, x ∈ out ↔ Power a k n x) (x : List Nat) :
    x ∈ kleeneFrom a k fuel out ↔ Power a k (n + fuel) x := by
  induction fuel generalizing out n with
  | zero => exact h x
  | succ fuel ih =>
    rw [kleeneFrom]
    split
    · next hstable => exact power_of_stable h hstable _ x
    · rw [ih (power_succ h), Nat.add_assoc, Nat.add_comm 1]

theorem length_le_flatten {ws : List (List Nat)} (h : ∀ w ∈ ws, w ≠ []) :
    ws.length ≤ ws.flatten.length := by
  induction ws with
  | nil => exact Nat.le_refl _
  | cons w ws ih =>
    have hw : 0 < w.length := List.length_pos_iff.2 (h w List.mem_cons_self)
    have := ih fun v hv => h v (List.mem_cons_of_mem _ hv)
    rw [List.length_cons, List.flatten_cons, List.length_append]
    omega

theorem take_flatten_take {ws : List (List Nat)} (h : ∀ w ∈ ws, w ≠ []) (k : Nat) :
    (ws.take k).flatten.take k = ws.flatten.take k := by
  by_cases hk : ws.length ≤ k
  · rw [List.take_of_length_le hk]
  · have hlen := length_le_flatten fun w hw => h w (List.mem_of_mem_take (i := k) hw)
    rw [List.length_take, Nat.min_eq_left (by omega)] at hlen
    have hflat : ws.flatten = (ws.take k).flatten ++ (ws.drop k).flatten := by
      rw [← List.flatten_append, List.take_append_drop]
    rw [hflat, List.take_append_of_le_length hlen]

theorem flatten_filter_ne_nil (ws : List (List Nat)) :
    (ws.filter (· ≠ [])).flatten = ws.flatten := by
  induction ws with
  | nil => rfl
  | cons w ws ih =>
    by_cases hw : w = []
    · subst hw
      rw [List.filter_cons_of_neg (by simp), ih, List.flatten_cons, List.nil_append]
    · rw [List.filter_cons_of_pos (by simpa using hw), List.flatten_cons, List.flatten_cons, ih]

/-- As empty members add nothing, `k` members are enough to fill `k` tokens. -/
theorem power_flatten {a : SequenceSet} {ws : List (List Nat)} (h : ∀ w ∈ ws, w ∈ a) (k : Nat) :
    Power a k k (ws.flatten.take k) := by
  refine ⟨(ws.filter (· ≠ [])).take k, List.length_take_le .., fun w hw => ?_, ?_⟩
  · exact h w (List.mem_filter.1 (List.mem_of_mem_take hw)).1
  · rw [take_flatten_take (fun w hw => by simpa using (List.mem_filter.1 hw).2),
      flatten_filter_ne_nil]

theorem mem_kleene {a : SequenceSet} {k : Nat} {x : List Nat} :
    x ∈ a.kleene k ↔ ∃ ws : List (List Nat), (∀ w ∈ ws, w ∈ a) ∧ ws.flatten.take k = x := by
  rw [kleene, mem_kleeneFrom k fun x => power_zero.symm, Nat.zero_add]
  constructor
  · rintro ⟨ws, _, hws, hx⟩
    exact ⟨ws, hws, hx⟩
  · rintro ⟨ws, hws, rfl⟩
    exact power_flatten hws k

theorem take_flatten_map_take (k : Nat) (ws : List (List Nat)) :
    (ws.map (·.take k)).flatten.take k = ws.flatten.take k := by
  induction ws with
  | nil => rfl
  | cons w ws ih =>
    rw [List.map_cons, List.flatten_cons, List.flatten_cons, take_take_append,
      ← take_append_take, ih,
      take_append_take]

theorem take_flatten_mem_kleene {a : SequenceSet} {k : Nat} {ws : List (List Nat)}
    (h : ∀ w ∈ ws, w.take k ∈ a) : ws.flatten.take k ∈ a.kleene k := by
  refine mem_kleene.2 ⟨ws.map (·.take k), fun w hw => ?_, take_flatten_map_take k ws⟩
  obtain ⟨v, hv, rfl⟩ := List.mem_map.1 hw
  exact h v hv

theorem exists_flatten_take_eq {A : List Nat → Prop} {k : Nat} {ws : List (List Nat)}
    (h : ∀ w ∈ ws, ∃ u, A u ∧ u.take k = w) :
    ∃ us : List (List Nat), (∀ u ∈ us, A u) ∧ us.flatten.take k = ws.flatten.take k := by
  induction ws with
  | nil => exact ⟨[], by simp, rfl⟩
  | cons w ws ih =>
    obtain ⟨⟨u, hu, rfl⟩, hws⟩ := List.forall_mem_cons.1 h
    obtain ⟨us, hus, heq⟩ := ih hws
    refine ⟨u :: us, List.forall_mem_cons.2 ⟨hu, hus⟩, ?_⟩
    rw [List.flatten_cons, List.flatten_cons, take_take_append, ← take_append_take, heq,
      take_append_take]

def Repeated (A : List Nat → Prop) (u : List Nat) : Prop :=
  ∃ us : List (List Nat), (∀ v ∈ us, A v) ∧ us.flatten = u

theorem exists_of_mem_kleene {a : SequenceSet} {k : Nat} {A : List Nat → Prop}
    (ha : ∀ s ∈ a, ∃ u, A u ∧ u.take k = s) {x : List Nat} (hx : x ∈ a.kleene k) :
    ∃ u, Repeated A u ∧ u.take k = x := by
  obtain ⟨ws, hws, rfl⟩ := mem_kleene.1 hx
  obtain ⟨us, hus, heq⟩ := exists_flatten_take_eq fun w hw => ha w (hws w hw)
  exact ⟨us.flatten, ⟨us, hus, rfl⟩, heq⟩

theorem length_le_of_mem_kleene {a : SequenceSet} {k : Nat} {x : List Nat} (h : x ∈ a.kleene k) :
    x.length ≤ k := by
  obtain ⟨ws, -, rfl⟩ := mem_kleene.1 h
  exact List.length_take_le ..

theorem nodup_seqs (a : SequenceSet) : a.seqs.Nodup := by
  apply a.increasing.imp
  intro s t hlt heq
  rw [heq] at hlt
  exact List.lt_irrefl t hlt

theorem size_union_eq_iff {a b : SequenceSet} : (a.union b).size = a.size ↔ a.union b = a := by
  constructor
  · intro hsize
    have hsubset : a.seqs ⊆ (a.union b).seqs := fun s hs => mem_union.2 (.inl hs)
    have hperm : a.seqs.Perm (a.union b).seqs :=
      (List.subperm_of_subset a.nodup_seqs hsubset).perm_of_length_le (Nat.le_of_eq hsize)
    apply SequenceSet.ext
    intro s
    exact hperm.symm.mem_iff
  · intro heq
    rw [heq]

/-- The rounds by which the closure of `a` goes on from `out`: as long as one makes the set larger,
there is another one. `count` is how many do. -/
inductive Rounds (a : SequenceSet) (k : Nat) : (count : Nat) → (out result : SequenceSet) → Prop
  | last {out : SequenceSet} (h : (out.union (out.concat a k)).size = out.size) :
      Rounds a k 0 out out
  | more {n : Nat} {out result : SequenceSet}
      (hgrown : (out.union (out.concat a k)).size ≠ out.size)
      (h : Rounds a k n (out.union (out.concat a k)) result) : Rounds a k (n + 1) out result

theorem Rounds.unique {a out r r' : SequenceSet} {k n n' : Nat} (h : Rounds a k n out r)
    (h' : Rounds a k n' out r') : n = n' ∧ r = r' := by
  induction h generalizing n' with
  | last hsame =>
    cases h' with
    | last _ => exact ⟨rfl, rfl⟩
    | more hgrown _ => exact absurd hsame hgrown
  | more hgrown _ ih =>
    cases h' with
    | last hsame => exact absurd hsame hgrown
    | more _ h' =>
      obtain ⟨hn, hr⟩ := ih h'
      exact ⟨congrArg (· + 1) hn, hr⟩

theorem exists_rounds_kleeneFrom {a : SequenceSet} {k : Nat} (fuel : Nat) {out : SequenceSet}
    {n : Nat} (h : ∀ x, x ∈ out ↔ Power a k n x)
    (hfull : ∀ x, Power a k (n + fuel + 1) x → Power a k (n + fuel) x) :
    ∃ m ≤ fuel, Rounds a k m out (kleeneFrom a k fuel out) := by
  induction fuel generalizing out n with
  | zero =>
    -- no fuel is left, but the next round would add nothing
    have hstable : out.union (out.concat a k) = out := by
      apply SequenceSet.ext
      intro x
      rw [power_succ h, h]
      exact ⟨hfull x, fun hx => hx.mono (Nat.le_succ _)⟩
    exact ⟨0, Nat.le_refl _, .last (size_union_eq_iff.2 hstable)⟩
  | succ fuel ih =>
    rw [kleeneFrom]
    split
    · next hstable => exact ⟨0, Nat.zero_le _, .last (size_union_eq_iff.2 hstable)⟩
    · next hgrown =>
      have hsum : n + 1 + fuel = n + (fuel + 1) := by omega
      obtain ⟨m, hm, hrounds⟩ := ih (power_succ h) (by rwa [hsum])
      exact ⟨m + 1, Nat.succ_le_succ hm, .more (mt size_union_eq_iff.1 hgrown) hrounds⟩

/-- The rounds from the empty sequence on end with the closure, after at most `k` that add
something, and the closure holds what any number of members, one after the other, begin with. -/
theorem kleene_exact (a : SequenceSet) (k : Nat) :
    (∃ n ≤ k, ∀ m r, Rounds a k m epsilon r ↔ m = n ∧ r = a.kleene k) ∧
      ∀ x, x ∈ a.kleene k ↔
        ∃ ws : List (List Nat), (∀ w ∈ ws, w ∈ a) ∧ ws.flatten.take k = x := by
  constructor
  · have hfull (x : List Nat) (hx : Power a k (0 + k + 1) x) : Power a k (0 + k) x := by
      obtain ⟨ws, -, hws, hx⟩ := hx
      rw [← hx, Nat.zero_add]
      exact power_flatten hws k
    obtain ⟨n, hn, hrounds⟩ := exists_rounds_kleeneFrom k (fun x => power_zero.symm) hfull
    refine ⟨n, hn, fun m r => ⟨fun h => h.unique hrounds, fun h => ?_⟩⟩
    obtain ⟨hm, hr⟩ := h
    rw [hm, hr]
    exact hrounds
  · intro x
    exact mem_kleene

example : (ofSeqs [[], [7, 8, 9], [5]]).kleene 2 = ofSeqs [[], [5], [5, 5], [5, 7], [7, 8]] := by
  decide

end PredictiveParsing.SequenceSet
