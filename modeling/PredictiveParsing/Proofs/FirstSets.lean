import PredictiveParsing.Proofs.BoundedConcatenation
import PredictiveParsing.Proofs.Derivation
import PredictiveParsing.Proofs.SetFamilies
import PredictiveParsing.Sets.Basic

/-!
# FIRST sets are exact

The FIRST set of a node holds, cut to the bound, everything that the node derives, since the sets
are closed under the equation of every node. It holds nothing else if every node derives something,
which is what the concatenation takes for granted where a member fills the bound before the last
item. Main statement: `first_exact`.
-/
namespace PredictiveParsing

namespace SequenceSet

theorem mem_foldl_union {sets : Nat → SequenceSet} {items : List Nat} {acc : SequenceSet}
    {x : List Nat} :
    x ∈ items.foldl (fun acc i => acc.union (sets i)) acc ↔ x ∈ acc ∨ ∃ i ∈ items, x ∈ sets i := by
  induction items generalizing acc with
  | nil => simp
  | cons i items ih =>
    simp only [List.foldl_cons, ih, mem_union, List.exists_mem_cons_iff, or_assoc]

theorem take_mem_foldl_concat {sets : Nat → SequenceSet} {k : Nat} {acc : SequenceSet}
    {v : List Nat}
    (hv : v.take k ∈ acc) {parts : List (Nat × List Nat)} (h : ∀ p ∈ parts, p.2.take k ∈ sets p.1) :
    (v ++ parts.flatMap (·.2)).take k ∈
      (parts.map (·.1)).foldl (fun acc i => acc.concat (sets i) k) acc := by
  induction parts generalizing acc v with
  | nil => simpa using hv
  | cons p parts ih =>
    rw [List.flatMap_cons, ← List.append_assoc]
    exact ih (take_append_mem_concat hv (h p List.mem_cons_self)) fun q hq =>
      h q (List.mem_cons_of_mem _ hq)

end SequenceSet

open SequenceSet

namespace SetFamily

variable {g : Grammar} {k : Nat} {a b : SequenceSet}

theorem bounded_nil (g : Grammar) (k : Nat) : Bounded g k [] := ⟨Nat.zero_le _, by simp⟩

theorem bounded_concat (ha : ∀ x ∈ a, Bounded g k x) (hb : ∀ x ∈ b, Bounded g k x) :
    ∀ x ∈ a.concat b k, Bounded g k x := by
  intro x hx
  refine ⟨length_le_of_mem_concat hx, fun t ht => ?_⟩
  obtain ⟨s, hs, ⟨-, rfl⟩ | ⟨u, hu, rfl⟩⟩ := mem_concat_iff.1 hx
  · exact (ha s hs).2 t (List.mem_of_mem_take ht)
  · rcases List.mem_append.1 (List.mem_of_mem_take ht) with ht | ht
    · exact (ha s hs).2 t ht
    · exact (hb u hu).2 t ht

theorem bounded_kleene (ha : ∀ x ∈ a, Bounded g k x) : ∀ x ∈ a.kleene k, Bounded g k x := by
  intro x hx
  refine ⟨length_le_of_mem_kleene hx, fun t ht => ?_⟩
  obtain ⟨ws, hws, rfl⟩ := mem_kleene.1 hx
  obtain ⟨w, hw, ht⟩ := List.mem_flatten.1 (List.mem_of_mem_take ht)
  exact (ha w (hws w hw)).2 t ht

theorem bounded_token {kind id : Nat} (hk : 1 ≤ k) (h : g.HasKind id (.token kind)) :
    Bounded g k [kind] := by
  refine ⟨hk, fun t ht => ?_⟩
  rw [List.mem_singleton.1 ht]
  obtain ⟨n, hn, hkind⟩ := Option.map_eq_some_iff.1 h
  refine Finset.mem_insert_of_mem
    (List.mem_toFinset.2 (List.mem_filterMap.2 ⟨n, ?_, by rw [hkind]⟩))
  exact Array.mem_toList_iff.2 (Array.mem_of_getElem? hn)

end SetFamily

namespace First

open PredictiveParsing.SetFamily

variable {g : Grammar} {k : Nat} {f : SetFamily}

def nodeStep (g : Grammar) (k : Nat) (f : SetFamily) (id : Nat) : SetFamily :=
  f.add (.node id) (ofKind g k f (g.kindOf id))

def productionStep (f : SetFamily) (p : Production) : SetFamily :=
  f.add (.production p.id) (f.node p.root)

theorem pass_eq (g : Grammar) (k : Nat) (f : SetFamily) :
    pass g k f = g.productions.toList.foldl productionStep (g.nodeIds.foldl (nodeStep g k) f) :=
  (Array.foldl_toList _).symm

theorem nodeSteps_add : Adds g (g.nodeIds.foldl (nodeStep g k) ·) :=
  .foldl fun id _ => adds_add (.node id) fun f => ofKind g k f (g.kindOf id)

theorem productionSteps_add : Adds g (g.productions.toList.foldl productionStep ·) :=
  .foldl fun p _ => adds_add (.production p.id) fun f => f.node p.root

theorem pass_adds : Adds g (pass g k) := by
  intro f hf
  rw [pass_eq]
  exact nodeSteps_add.comp productionSteps_add f hf

theorem pass_within {P : SetOwner → List Nat → Prop}
    (hnode : ∀ id kind, g.HasKind id kind → ∀ f : SetFamily, f.Within P →
      ∀ x ∈ ofKind g k f kind, P (.node id) x)
    (hproduction : ∀ p ∈ g.productions, ∀ x, P (.node p.root) x → P (.production p.id) x)
    (hf : f.Fits g) (h : f.Within P) : (pass g k f).Within P := by
  rw [pass_eq]
  refine Within.foldl (fun p _ => adds_add (.production p.id) fun f => f.node p.root)
    (fun p hp f hf h => ?_) (nodeSteps_add f hf).1 ?_
  · exact h.add hf fun x hx _ =>
      hproduction p (Array.mem_toList_iff.1 hp) x (h (.node p.root) x hx)
  · refine Within.foldl (fun id _ => adds_add (.node id) fun f => ofKind g k f (g.kindOf id))
      (fun id hid f hf h => ?_) hf h
    exact h.add hf fun x hx howns => hnode id _ (Grammar.hasKind_kindOf howns) f h x hx

theorem ofGrammar_within {P : SetOwner → List Nat → Prop}
    (hnode : ∀ id kind, g.HasKind id kind → ∀ f : SetFamily, f.Within P →
      ∀ x ∈ ofKind g k f kind, P (.node id) x)
    (hproduction : ∀ p ∈ g.productions, ∀ x, P (.node p.root) x → P (.production p.id) x) :
    (ofGrammar g k).value.Within P := by
  have hpass : ∀ f : SetFamily, f.Fits g ∧ f.Within P →
      (pass g k f).Fits g ∧ (pass g k f).Within P := fun f hf =>
    ⟨(pass_adds f hf.1).1, pass_within hnode hproduction hf.1 hf.2⟩
  exact (Saturation.run_keeps hpass ⟨.empty g, .empty _ g⟩ _).2

structure Closed (g : Grammar) (k : Nat) (f : SetFamily) : Prop where
  node : ∀ id kind, g.HasKind id kind → ∀ x ∈ ofKind g k f kind, x ∈ f.node id
  production : ∀ p ∈ g.productions, ∀ x ∈ f.node p.root, x ∈ f.production p.id

theorem bounded_ofKind (hk : 1 ≤ k) {id : Nat} {kind : Node.Kind} (hkind : g.HasKind id kind)
    (h : f.Within fun _ => Bounded g k) : ∀ x ∈ ofKind g k f kind, Bounded g k x := by
  have hnode (i : Nat) : ∀ x ∈ f.node i, Bounded g k x := h (.node i)
  have hepsilon : ∀ x ∈ epsilon, Bounded g k x := fun x hx => mem_epsilon.1 hx ▸ bounded_nil g k
  cases kind with
  | sequence items =>
    suffices ∀ acc : SequenceSet, (∀ x ∈ acc, Bounded g k x) →
        ∀ x ∈ items.foldl (fun acc i => acc.concat (f.node i) k) acc, Bounded g k x from
      this epsilon hepsilon
    clear hkind
    induction items with
    | nil => exact fun acc hacc => hacc
    | cons i items ih => exact fun acc hacc => ih _ (bounded_concat hacc (hnode i))
  | choice items =>
    intro x hx
    rcases mem_foldl_union.1 hx with hx | ⟨i, -, hx⟩
    · exact absurd hx (not_mem_empty x)
    · exact hnode i x hx
  | zeroOrMore body => exact bounded_kleene (hnode body)
  | oneOrMore body => exact bounded_concat (hnode body) (bounded_kleene (hnode body))
  | zeroOrOne body =>
    intro x hx
    rcases mem_union.1 hx with hx | hx
    · exact hnode body x hx
    · exact hepsilon x hx
  | nonterminal name =>
    intro x hx
    rw [ofKind] at hx
    split at hx
    · next p _ => exact h (.production p.id) x hx
    · exact absurd hx (not_mem_empty x)
  | token kind => exact fun x hx => mem_token.1 hx ▸ bounded_token hk hkind
  | tokenName name => exact fun x hx => absurd hx (not_mem_empty x)
  | literal image => exact fun x hx => absurd hx (not_mem_empty x)
  | action code => exact hepsilon
  | lookahead la => exact hepsilon

def source (g : Grammar) (k : Nat) (f : SetFamily) : SetOwner → SequenceSet
  | .node id => ofKind g k f (g.kindOf id)
  | .production id => (g.productions[id]?.map fun p => f.node p.root).getD .empty

def visit (g : Grammar) (k : Nat) (f : SetFamily) (o : SetOwner) : SetFamily :=
  f.add o (source g k f o)

theorem source_production {p : Production} (hp : p ∈ g.productions) :
    source g k f (.production p.id) = f.node p.root := by
  rw [source, Grammar.getElem?_id hp]
  rfl

theorem pass_eq_visits (g : Grammar) (k : Nat) (f : SetFamily) :
    pass g k f = (g.nodeOwners ++ g.productionOwners).foldl (visit g k) f := by
  have hproduction (f : SetFamily) (p : Production) (hp : p ∈ g.productions) :
      visit g k f (.production p.id) = productionStep f p := by
    rw [visit, source_production hp, productionStep]
  rw [pass_eq, List.foldl_append, Grammar.foldl_productionOwners hproduction, Grammar.nodeOwners,
    List.foldl_map]
  rfl

theorem handing_source (g : Grammar) (hk : 1 ≤ k) :
    Handing g k fun f o => [(o, source g k f o)] := by
  constructor
  · intro f o c hc howns
    rwa [List.mem_singleton.1 hc] at howns
  · intro f h o howns c hc
    obtain rfl := List.mem_singleton.1 hc
    cases o with
    | node id => exact bounded_ofKind hk (Grammar.hasKind_kindOf howns) h
    | production id =>
      rw [source, Array.getElem?_eq_getElem howns]
      exact h (.node _)

theorem kept_empty (g : Grammar) (k : Nat) : Kept g k (.empty g) := ⟨.empty g, .empty _ g⟩

theorem ofGrammar_closed (g : Grammar) {k : Nat} (hk : 1 ≤ k) :
    Kept g k (ofGrammar g k).value ∧ Closed g k (ofGrammar g k).value := by
  obtain ⟨hkept, -, hclosed⟩ := saturate_closed (handing_source g hk) (kept_empty g k)
    g.covers_nodes_productions (pass_eq_visits g k)
  refine ⟨hkept, fun id kind hkind x hx => ?_, fun p hp x hx => ?_⟩
  · rw [← hkind.kindOf] at hx
    exact hclosed (.node id) _ (List.mem_singleton_self _) hkind.lt x hx
  · rw [← source_production (k := k) hp] at hx
    exact hclosed (.production p.id) _ (List.mem_singleton_self _) (Grammar.id_lt_of_mem hp) x hx

theorem Closed.take_mem (h : Closed g k f) (hk : 1 ≤ k) {id : Nat} {w : List Nat}
    (hw : g.Derives id w) :
    w.take k ∈ f.node id := by
  induction hw with
  | sequence hkind _ ih =>
    have hnil : ([] : List Nat).take k ∈ epsilon := mem_epsilon.2 List.take_nil
    exact h.node _ _ hkind _ (take_mem_foldl_concat hnil ih)
  | choice hkind hi _ ih => exact h.node _ _ hkind _ (mem_foldl_union.2 (.inr ⟨_, hi, ih⟩))
  | zeroOrMore hkind _ ih => exact h.node _ _ hkind _ (take_flatten_mem_kleene ih)
  | oneOrMore hkind _ _ ih ihs =>
    exact h.node _ _ hkind _ (take_append_mem_concat ih (take_flatten_mem_kleene ihs))
  | skipped hkind =>
    rw [List.take_nil]
    exact h.node _ _ hkind _ (mem_union.2 (.inr (mem_epsilon.2 rfl)))
  | taken hkind _ ih => exact h.node _ _ hkind _ (mem_union.2 (.inl ih))
  | nonterminal hkind hp _ ih =>
    refine h.node _ _ hkind _ ?_
    rw [ofKind, hp]
    exact h.production _ (Grammar.mem_of_production? hp) _ ih
  | token hkind =>
    rw [List.take_of_length_le hk]
    exact h.node _ _ hkind _ (mem_token.2 rfl)
  | action hkind =>
    rw [List.take_nil]
    exact h.node _ _ hkind _ (mem_epsilon.2 rfl)
  | lookahead hkind =>
    rw [List.take_nil]
    exact h.node _ _ hkind _ (mem_epsilon.2 rfl)

def Derived (g : Grammar) (k : Nat) : SetOwner → List Nat → Prop
  | .node id, x => ∃ w, g.Derives id w ∧ w.take k = x
  | .production id, x => ∃ p ∈ g.productions, p.id = id ∧ ∃ w, g.Derives p.root w ∧ w.take k = x

theorem exists_derives_item {id : Nat} {items w : List Nat} (hkind : g.HasKind id (.sequence items))
    (hw : g.Derives id w) : ∀ i ∈ items, ∃ v, g.Derives i v := by
  cases hw with
  | @sequence _ parts h hparts =>
    have heq : items = parts.map (·.1) := by
      have := hkind.kindOf.symm.trans h.kindOf
      simpa using this
    subst heq
    intro i hi
    obtain ⟨p, hp, rfl⟩ := List.mem_map.1 hi
    exact ⟨p.2, hparts p hp⟩
  | choice h | zeroOrMore h | oneOrMore h | skipped h | taken h | nonterminal h | token h | action h
  | lookahead h => simpa using hkind.kindOf.symm.trans h.kindOf

/-- The items of a sequence one after the other, each of which has to derive something: once the
bound is reached the later ones are not asked any more. -/
theorem exists_of_mem_foldl_concat (h : f.Within (Derived g k)) {items : List Nat}
    (hitems : ∀ i ∈ items, ∃ w, g.Derives i w) {acc : SequenceSet} {A : List Nat → Prop}
    (hacc : ∀ s ∈ acc, ∃ u, A u ∧ u.take k = s) {x : List Nat}
    (hx : x ∈ items.foldl (fun acc i => acc.concat (f.node i) k) acc) :
    ∃ u w, A u ∧ g.DerivesAll items w ∧ (u ++ w).take k = x := by
  induction items generalizing acc A with
  | nil =>
    obtain ⟨u, hu, rfl⟩ := hacc x hx
    exact ⟨u, [], hu, .nil, by rw [List.append_nil]⟩
  | cons i items ih =>
    obtain ⟨hi, hitems⟩ := List.forall_mem_cons.1 hitems
    have hacc' : ∀ s ∈ acc.concat (f.node i) k,
        ∃ v, (∃ u w, A u ∧ g.Derives i w ∧ u ++ w = v) ∧ v.take k = s := by
      intro s hs
      obtain ⟨u, w, hu, hw, hs⟩ := exists_of_mem_concat hacc (h (.node i)) hi hs
      exact ⟨u ++ w, ⟨u, w, hu, hw, rfl⟩, hs⟩
    obtain ⟨_, w, ⟨u, v, hu, hv, rfl⟩, hw, hx⟩ := ih hitems hacc' hx
    exact ⟨u, v ++ w, hu, hw.cons hv, by rw [← List.append_assoc, hx]⟩

theorem derived_ofKind (hk : 1 ≤ k) (hproductive : g.Productive) {id : Nat} {kind : Node.Kind}
    (hkind : g.HasKind id kind) (h : f.Within (Derived g k)) :
    ∀ x ∈ ofKind g k f kind, Derived g k (.node id) x := by
  intro x hx
  cases kind with
  | sequence items =>
    obtain ⟨w₀, hw₀⟩ := hproductive id hkind.lt
    have hepsilon : ∀ s ∈ epsilon, ∃ u : List Nat, u = [] ∧ u.take k = s := fun s hs =>
      ⟨[], rfl, by rw [mem_epsilon.1 hs, List.take_nil]⟩
    obtain ⟨_, w, rfl, hw, hx⟩ :=
      exists_of_mem_foldl_concat h (exists_derives_item hkind hw₀) hepsilon hx
    exact ⟨w, hw.derives hkind, hx⟩
  | choice items =>
    rcases mem_foldl_union.1 hx with hx | ⟨i, hi, hx⟩
    · exact absurd hx (not_mem_empty x)
    · obtain ⟨w, hw, rfl⟩ := h (.node i) x hx
      exact ⟨w, .choice hkind hi hw, rfl⟩
  | zeroOrMore body =>
    obtain ⟨_, ⟨ws, hws, rfl⟩, hx⟩ := exists_of_mem_kleene (h (.node body)) hx
    exact ⟨ws.flatten, .zeroOrMore hkind hws, hx⟩
  | oneOrMore body =>
    have hkleene : ∀ t ∈ (f.node body).kleene k, ∃ v, Repeated (g.Derives body) v ∧ v.take k = t :=
      fun _ ht => exists_of_mem_kleene (h (.node body)) ht
    obtain ⟨w, _, hw, ⟨ws, hws, rfl⟩, hx⟩ :=
      exists_of_mem_concat (h (.node body)) hkleene ⟨[], [], by simp, rfl⟩ hx
    exact ⟨w ++ ws.flatten, .oneOrMore hkind hw hws, hx⟩
  | zeroOrOne body =>
    rcases mem_union.1 hx with hx | hx
    · obtain ⟨w, hw, rfl⟩ := h (.node body) x hx
      exact ⟨w, .taken hkind hw, rfl⟩
    · exact ⟨[], .skipped hkind, by rw [mem_epsilon.1 hx, List.take_nil]⟩
  | nonterminal name =>
    rw [ofKind] at hx
    split at hx
    · next p hp =>
      obtain ⟨q, hq, hid, w, hw, rfl⟩ := h (.production p.id) x hx
      obtain rfl := Grammar.eq_of_id_eq hq (Grammar.mem_of_production? hp) hid
      exact ⟨w, .nonterminal hkind hp hw, rfl⟩
    · exact absurd hx (not_mem_empty x)
  | token kind =>
    obtain rfl := mem_token.1 hx
    exact ⟨[kind], .token hkind, List.take_of_length_le hk⟩
  | tokenName name => exact absurd hx (not_mem_empty x)
  | literal image => exact absurd hx (not_mem_empty x)
  | action code => exact ⟨[], .action hkind, by rw [mem_epsilon.1 hx, List.take_nil]⟩
  | lookahead la => exact ⟨[], .lookahead hkind, by rw [mem_epsilon.1 hx, List.take_nil]⟩

theorem ofGrammar_derived (hk : 1 ≤ k) (hproductive : g.Productive) :
    (ofGrammar g k).value.Within (Derived g k) := by
  refine ofGrammar_within (fun _ _ hkind _ h => derived_ofKind hk hproductive hkind h) ?_
  rintro p hp x ⟨w, hw, rfl⟩
  exact ⟨p, hp, rfl, w, hw, rfl⟩

end First

namespace Grammar

theorem one_le_setBound (g : Grammar) : 1 ≤ g.setBound := Nat.le_max_right _ _

theorem take_mem_first (g : Grammar) {id : Nat} {w : List Nat} (hw : g.Derives id w) :
    w.take g.computeSets.1.k ∈ g.computeSets.1.first.node id :=
  (First.ofGrammar_closed g g.one_le_setBound).2.take_mem g.one_le_setBound hw

/-- FIRST sets lose nothing that is derived, cut to the bound. They hold nothing else in a grammar
where every node derives something, which leaves no name unresolved. -/
theorem first_exact (g : Grammar) :
    let s := g.computeSets.1
    (∀ id w, g.Derives id w → w.take s.k ∈ s.first.node id) ∧
    (∀ p ∈ g.productions, ∀ w, g.Derives p.root w → w.take s.k ∈ s.first.production p.id) ∧
    (g.Productive →
      (∀ id x, x ∈ s.first.node id ↔ ∃ w, g.Derives id w ∧ w.take s.k = x) ∧
      (∀ p ∈ g.productions, ∀ x,
        x ∈ s.first.production p.id ↔ ∃ w, g.Derives p.root w ∧ w.take s.k = x)) := by
  intro s
  have hk : 1 ≤ s.k := g.one_le_setBound
  obtain ⟨-, hclosed⟩ := First.ofGrammar_closed g hk
  have hnode (id : Nat) (w : List Nat) (hw : g.Derives id w) : w.take s.k ∈ s.first.node id :=
    g.take_mem_first hw
  have hproduction (p : Production) (hp : p ∈ g.productions) (w : List Nat)
      (hw : g.Derives p.root w) :
      w.take s.k ∈ s.first.production p.id :=
    hclosed.production p hp _ (hnode p.root w hw)
  refine ⟨hnode, hproduction, fun hproductive => ?_⟩
  have hderived := First.ofGrammar_derived hk hproductive
  refine ⟨fun id x => ⟨fun hx => hderived (.node id) x hx, ?_⟩, fun p hp x => ⟨fun hx => ?_, ?_⟩⟩
  · rintro ⟨w, hw, rfl⟩
    exact hnode id w hw
  · obtain ⟨q, hq, hid, w, hw, rfl⟩ := hderived (.production p.id) x hx
    obtain rfl := eq_of_id_eq hq hp hid
    exact ⟨w, hw, rfl⟩
  · rintro ⟨w, hw, rfl⟩
    exact hproduction p hp w hw

theorem first_exact_itemList :
    itemList.Productive ∧ ∀ x, x ∈ itemList.computeSets.1.first.production 0 ↔
      ∃ w, itemList.Derives 4 w ∧ w.take itemList.computeSets.1.k = x :=
  ⟨itemList_productive, ((first_exact itemList).2.2 itemList_productive).2
    ⟨"List", 0, 4, none, .none⟩ (Array.mem_of_getElem? (i := 0) rfl)⟩

end Grammar
end PredictiveParsing
