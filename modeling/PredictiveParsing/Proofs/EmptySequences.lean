import PredictiveParsing.Proofs.LeastSolutions

/-!
# Empty sequences in FIRST sets

Nullability and FIRST sets are computed apart, by different equations. For the empty sequence the
equations say the same: as long as the bound leaves room for one token, a concatenation has it just
if both operands do, and a closure always has it. So the FIRST sets hold it just where a node or
production is marked as nullable, which is where the empty text is derived. Main statement:
`nullable_agrees_with_first`.
-/
namespace PredictiveParsing

open SequenceSet

namespace SequenceSet

variable {a b : SequenceSet} {k : Nat}

theorem nil_mem_concat (hk : 1 ≤ k) : [] ∈ a.concat b k ↔ [] ∈ a ∧ [] ∈ b := by
  rw [mem_concat_iff]
  constructor
  · rintro ⟨s, hs, ⟨hlen, hcut⟩ | ⟨t, ht, hcut⟩⟩
    · -- a member that fills the bound has a first token
      have := congrArg List.length hcut
      rw [List.length_take, List.length_nil] at this
      omega
    · have happend : s ++ t = [] := (List.take_eq_nil_iff.1 hcut).resolve_left (by omega)
      obtain ⟨rfl, rfl⟩ := List.append_eq_nil_iff.1 happend
      exact ⟨hs, ht⟩
  · rintro ⟨ha, hb⟩
    exact ⟨[], ha, .inr ⟨[], hb, List.take_nil⟩⟩

theorem nil_mem_kleene (a : SequenceSet) (k : Nat) : [] ∈ a.kleene k :=
  mem_kleene.2 ⟨[], by simp, List.take_nil⟩

theorem nil_mem_foldl_concat (hk : 1 ≤ k) {sets : Nat → SequenceSet} {items : List Nat} :
    [] ∈ items.foldl (fun acc i => acc.concat (sets i) k) a ↔
      [] ∈ a ∧ ∀ i ∈ items, [] ∈ sets i := by
  induction items generalizing a with
  | nil => simp
  | cons i items ih =>
    rw [List.foldl_cons, ih, nil_mem_concat hk, List.forall_mem_cons, and_assoc]

end SequenceSet

namespace SetFamily

def emptiness (f : SetFamily) : Nullable :=
  ⟨f.nodes.map containsEpsilon, f.productions.map containsEpsilon⟩

theorem getD_map_containsEpsilon {sets : Array SequenceSet} {i : Nat} :
    (sets.map containsEpsilon)[i]?.getD false = true ↔ [] ∈ sets[i]?.getD .empty := by
  rw [Array.getElem?_map]
  cases sets[i]? with
  | none => simp
  | some a => simp [containsEpsilon, contains]

theorem get_emptiness {f : SetFamily} {o : SetOwner} :
    f.emptiness.get o = true ↔ [] ∈ f.get o := by
  cases o with
  | node id => exact getD_map_containsEpsilon
  | production id => exact getD_map_containsEpsilon

theorem Fits.emptiness {g : Grammar} {f : SetFamily} (h : f.Fits g) : f.emptiness.Fits g :=
  ⟨(Array.size_map ..).trans h.nodes, (Array.size_map ..).trans h.productions⟩

end SetFamily

namespace First

variable {g : Grammar} {k : Nat} {f : SetFamily} {o : SetOwner}

theorem nil_mem_ofKind (hk : 1 ≤ k) {kind : Node.Kind} :
    [] ∈ ofKind g k f kind ↔ f.emptiness.ofKind g kind = true := by
  have hnode {i : Nat} : [] ∈ f.node i ↔ f.emptiness.node i = true :=
    (SetFamily.get_emptiness (o := .node i)).symm
  cases kind with
  | sequence items =>
    simp [ofKind, Nullable.ofKind, nil_mem_foldl_concat hk, hnode]
  | choice items => simp [ofKind, Nullable.ofKind, mem_foldl_union, hnode]
  | zeroOrMore body => exact iff_of_true (nil_mem_kleene _ k) rfl
  | oneOrMore body =>
    rw [ofKind, nil_mem_concat hk, and_iff_left (nil_mem_kleene _ k), hnode, Nullable.ofKind]
  | zeroOrOne body => exact iff_of_true (mem_union.2 (.inr (mem_epsilon.2 rfl))) rfl
  | nonterminal name =>
    rw [ofKind, Nullable.ofKind]
    cases g.production? name with
    | none => simp
    | some p => exact (SetFamily.get_emptiness (o := .production p.id)).symm
  | token kind => simp [ofKind, Nullable.ofKind]
  | tokenName name | literal image => exact iff_of_false (not_mem_empty _) Bool.false_ne_true
  | action code | lookahead la => exact iff_of_true (mem_epsilon.2 rfl) rfl

theorem nil_mem_source (hk : 1 ≤ k) :
    [] ∈ source g k f o ↔ Nullable.source g f.emptiness o = true := by
  cases o with
  | node id => exact nil_mem_ofKind hk
  | production id =>
    rw [source, Nullable.source]
    cases g.productions[id]? with
    | none => simp
    | some p => exact (SetFamily.get_emptiness (o := .node p.root)).symm

theorem Solves.emptiness (hk : 1 ≤ k) (h : Solves g k f) : Nullable.Solves g f.emptiness := by
  obtain ⟨hfits, hiff⟩ := solves_iff_source.1 h
  refine Nullable.solves_iff_source.2 ⟨hfits.emptiness, fun o howns => Bool.eq_iff_iff.2 ?_⟩
  rw [SetFamily.get_emptiness, hiff o howns, nil_mem_source hk]

/-- Nothing but a nullable node or production ever gets the empty sequence. -/
theorem emptiness_below (g : Grammar) (hk : 1 ≤ k) :
    (ofGrammar g k).value.emptiness.Below (Nullable.ofGrammar g).value := by
  obtain ⟨-, hclosed⟩ := Nullable.ofGrammar_exact g
  have hwithin : (ofGrammar g k).value.Within fun o x =>
      x = [] → (Nullable.ofGrammar g).value.get o = true := by
    refine ofGrammar_within ?_ fun p hp x hroot hx => hclosed.production p hp (hroot hx)
    rintro id kind hkind f h _ hx rfl
    have hle : f.emptiness.Below (Nullable.ofGrammar g).value := fun o ho =>
      h o [] (SetFamily.get_emptiness.1 ho) rfl
    exact hclosed.node id kind hkind (Nullable.ofKind_mono hle ((nil_mem_ofKind hk).1 hx))
  exact fun o ho => hwithin o [] (SetFamily.get_emptiness.1 ho) rfl

theorem emptiness_ofGrammar (g : Grammar) (hk : 1 ≤ k) :
    (ofGrammar g k).value.emptiness = (Nullable.ofGrammar g).value := by
  have hnullable := Nullable.ofGrammar_endsLeast g
  have hsolves := (ofGrammar_endsLeast g hk).solves.emptiness hk
  exact Nullable.eq_of_get_iff hsolves.fits hnullable.solves.fits fun o =>
    ⟨emptiness_below g hk o, hnullable.least _ hsolves o⟩

end First

namespace Grammar

theorem nil_mem_first (g : Grammar) (o : SetOwner) :
    g.computeSets.1.nullable.get o = true ↔ [] ∈ g.computeSets.1.first.get o := by
  rw [← SetFamily.get_emptiness]
  exact Bool.eq_iff_iff.1 (congrArg (·.get o) (First.emptiness_ofGrammar g g.one_le_setBound).symm)

theorem nullable_production_iff {g : Grammar} {p : Production} (hp : p ∈ g.productions) :
    g.computeSets.1.nullable.production p.id = true ↔ g.Derives p.root [] := by
  obtain ⟨hsound, hclosed⟩ := Nullable.ofGrammar_exact g
  constructor
  · intro h
    obtain ⟨q, hq, hid, hderives⟩ := hsound.production p.id h
    exact eq_of_id_eq hq hp hid ▸ hderives
  · exact fun h => hclosed.production p hp (hclosed.node_of_derives h rfl)

/-- A node or production is marked as nullable just if its FIRST set has the empty sequence, and
just if it derives the empty text. -/
theorem nullable_agrees_with_first (g : Grammar) :
    let s := g.computeSets.1
    (∀ id, (s.nullable.node id = true ↔ [] ∈ s.first.node id) ∧
      ([] ∈ s.first.node id ↔ g.Derives id [])) ∧
    ∀ p ∈ g.productions, (s.nullable.production p.id = true ↔ [] ∈ s.first.production p.id) ∧
      ([] ∈ s.first.production p.id ↔ g.Derives p.root []) := by
  intro s
  refine ⟨fun id => ⟨g.nil_mem_first (.node id), ?_⟩,
    fun p hp => ⟨g.nil_mem_first (.production p.id), ?_⟩⟩
  · exact (g.nil_mem_first (.node id)).symm.trans (g.nullable_iff id)
  · exact (g.nil_mem_first (.production p.id)).symm.trans (nullable_production_iff hp)

theorem nullable_agrees_with_first_itemList :
    ⟨"List", 0, 4, none, .none⟩ ∈ itemList.productions ∧
      [] ∈ itemList.computeSets.1.first.production 0 ∧
      itemList.computeSets.1.nullable.production 0 = true := by
  have hp : ⟨"List", 0, 4, none, .none⟩ ∈ itemList.productions :=
    Array.mem_of_getElem? (i := 0) rfl
  obtain ⟨hiff, hderives⟩ := (nullable_agrees_with_first itemList).2 _ hp
  have hempty := hderives.2 itemList_derives_empty
  exact ⟨hp, hempty, hiff.2 hempty⟩

end Grammar
end PredictiveParsing
