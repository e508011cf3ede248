import PredictiveParsing.Proofs.ConcatenationLaws
import PredictiveParsing.Proofs.FollowSets
import PredictiveParsing.Proofs.Nullability

/-!
# The equations of the sets

What the set of a node or production has to be, told from the sets of the others, with one equation
for each kind of node. The equations speak of sequences and not of the operations on sets: a member
of a sequence's FIRST set is put together from members of the items' sets, cut to the bound, and
items after the bound is filled are not asked. A FOLLOW set holds what comes into it on any of the
ways that there are. The steps of the passes satisfy these equations. Main statements:
`Nullable.ofKind_iff`, `First.mem_ofKind` and `Follow.flows_iff`.
-/
namespace PredictiveParsing

open SequenceSet PredictiveParsing.SetFamily

theorem Grammar.Owns.exists_production {g : Grammar} {id : Nat} (h : g.Owns (.production id)) :
    ∃ p ∈ g.productions, p.id = id := by
  have hid : id < g.productions.size := h
  exact ⟨_, Array.getElem_mem hid, g.productions_numbered id _ (Array.getElem?_eq_getElem hid)⟩

namespace Nullable

variable {g : Grammar} {n : Nullable}

/-- When a node of the kind can be empty, if what `n` marks can. -/
def EmptyBy (g : Grammar) (n : Nullable) : Node.Kind → Prop
  | .sequence items => ∀ i ∈ items, n.node i = true
  | .choice items => ∃ i ∈ items, n.node i = true
  | .zeroOrMore _ => True
  | .oneOrMore body => n.node body = true
  | .zeroOrOne _ => True
  | .nonterminal name => ∃ p, g.production? name = some p ∧ n.production p.id = true
  | .token _ => False
  | .tokenName _ => False
  | .literal _ => False
  | .action _ => True
  | .lookahead _ => True

structure Solves (g : Grammar) (n : Nullable) : Prop where
  fits : n.Fits g
  node : ∀ id kind, g.HasKind id kind → (n.node id = true ↔ EmptyBy g n kind)
  production : ∀ p ∈ g.productions, (n.production p.id = true ↔ n.node p.root = true)

theorem ofKind_iff {kind : Node.Kind} : n.ofKind g kind = true ↔ EmptyBy g n kind := by
  cases kind with
  | sequence items => exact List.all_eq_true
  | choice items => exact List.any_eq_true
  | nonterminal name => exact Option.any_eq_true ..
  | oneOrMore body => exact Iff.rfl
  | zeroOrMore body | zeroOrOne body | action code | lookahead la => exact iff_of_true rfl trivial
  | token kind | tokenName name | literal image => exact iff_of_false Bool.false_ne_true id

theorem solves_iff_source : Solves g n ↔ n.Fits g ∧ ∀ o, g.Owns o → n.get o = source g n o := by
  constructor
  · rintro ⟨hfits, hnode, hproduction⟩
    refine ⟨hfits, fun o howns => Bool.eq_iff_iff.2 ?_⟩
    cases o with
    | node id => exact (hnode id _ (Grammar.hasKind_kindOf howns)).trans ofKind_iff.symm
    | production id =>
      obtain ⟨p, hp, rfl⟩ := howns.exists_production
      rw [source_production hp]
      exact hproduction p hp
  · rintro ⟨hfits, heq⟩
    refine ⟨hfits, fun id kind hkind => ?_, fun p hp => ?_⟩
    · rw [← ofKind_iff, ← hkind.kindOf]
      exact Bool.eq_iff_iff.1 (heq (.node id) hkind.lt)
    · rw [← source_production hp]
      exact Bool.eq_iff_iff.1 (heq (.production p.id) (Grammar.id_lt_of_mem hp))

end Nullable

namespace SequenceSet

variable {k : Nat} {sets : Nat → SequenceSet} {acc : SequenceSet} {items x : List Nat}

/-- One member for each of the first items, one after the other and cut to the bound. Items may be
left over only where the bound is filled. -/
def InTurn (k : Nat) (sets : Nat → SequenceSet) (items x : List Nat) : Prop :=
  ∃ before after ts, before ++ after = items ∧ List.Forall₂ (fun i t => t ∈ sets i) before ts ∧
    (after = [] ∨ k ≤ ts.flatten.length) ∧ ts.flatten.take k = x

theorem mem_foldl_concat (hacc : ∀ s ∈ acc, s.length ≤ k) :
    x ∈ items.foldl (fun acc i => acc.concat (sets i) k) acc ↔
      ∃ s ∈ acc, ∃ before after ts, before ++ after = items ∧
        List.Forall₂ (fun i t => t ∈ sets i) before ts ∧
        (after = [] ∨ k ≤ (s ++ ts.flatten).length) ∧ (s ++ ts.flatten).take k = x := by
  induction items generalizing acc with
  | nil =>
    rw [List.foldl_nil]
    constructor
    · intro hx
      refine ⟨x, hx, [], [], [], rfl, .nil, .inl rfl, ?_⟩
      rw [List.flatten_nil, List.append_nil, List.take_of_length_le (hacc x hx)]
    · rintro ⟨s, hs, before, after, ts, hsplit, hts, -, rfl⟩
      obtain ⟨rfl, -⟩ := List.append_eq_nil_iff.1 hsplit
      cases hts
      rwa [List.flatten_nil, List.append_nil, List.take_of_length_le (hacc s hs)]
  | cons i items ih =>
    rw [List.foldl_cons, ih fun s hs => length_le_of_mem_concat hs]
    constructor
    · rintro ⟨u, hu, before, after, ts, rfl, hts, hrest, rfl⟩
      obtain ⟨s, hs, ⟨hfull, rfl⟩ | ⟨t, ht, rfl⟩⟩ := mem_concat_iff.1 hu
      · -- the items up to here have filled the bound, so that none of the others counts
        refine ⟨s, hs, [], i :: (before ++ after), [], rfl, .nil, .inr (by simpa using hfull), ?_⟩
        rw [take_take_append, List.flatten_nil, List.append_nil,
          List.take_append_of_le_length hfull]
      · refine ⟨s, hs, i :: before, after, t :: ts, rfl, .cons ht hts, hrest.imp_right ?_, ?_⟩
        · simp only [List.flatten_cons, List.length_append, List.length_take]
          omega
        · rw [take_take_append, List.flatten_cons, List.append_assoc]
    · rintro ⟨s, hs, before, after, ts, hsplit, hts, hrest, rfl⟩
      cases hts with
      | nil =>
        rw [List.nil_append] at hsplit
        subst hsplit
        rw [List.flatten_nil, List.append_nil] at hrest ⊢
        have hfull : k ≤ s.length := hrest.resolve_left (List.cons_ne_nil _ _)
        refine ⟨s.take k, mem_concat_iff.2 ⟨s, hs, .inl ⟨hfull, rfl⟩⟩, [], items, [], rfl, .nil,
          .inr ?_, ?_⟩
        · simpa using hfull
        · rw [List.flatten_nil, List.append_nil, List.take_take, Nat.min_self]
      | @cons _ t before ts ht hts =>
        obtain ⟨rfl, rfl⟩ := List.cons.inj hsplit
        rw [List.flatten_cons, ← List.append_assoc] at hrest ⊢
        refine ⟨(s ++ t).take k, mem_concat_iff.2 ⟨s, hs, .inr ⟨t, ht, rfl⟩⟩, before, after, ts,
          rfl, hts, hrest.imp_right ?_, take_take_append ..⟩
        simp only [List.length_append, List.length_take]
        omega

theorem mem_foldl_concat_epsilon :
    x ∈ items.foldl (fun acc i => acc.concat (sets i) k) epsilon ↔ InTurn k sets items x := by
  have hepsilon : ∀ s ∈ epsilon, s.length ≤ k := by simp
  rw [mem_foldl_concat hepsilon]
  simp only [mem_epsilon, exists_eq_left, List.nil_append, InTurn]

end SequenceSet

namespace First

variable {g : Grammar} {k : Nat} {f : SetFamily} {x : List Nat}

/-- What is a member of the set of a node of the kind, if the other sets are those of `f`. -/
def BeginsBy (g : Grammar) (k : Nat) (f : SetFamily) : Node.Kind → List Nat → Prop
  | .sequence items, x => InTurn k f.node items x
  | .choice items, x => ∃ i ∈ items, x ∈ f.node i
  | .zeroOrMore body, x =>
    ∃ ws : List (List Nat), (∀ w ∈ ws, w ∈ f.node body) ∧ ws.flatten.take k = x
  | .oneOrMore body, x =>
    ∃ w ∈ f.node body, ∃ ws : List (List Nat), (∀ w ∈ ws, w ∈ f.node body) ∧
      (w ++ ws.flatten).take k = x
  | .zeroOrOne body, x => x ∈ f.node body ∨ x = []
  | .nonterminal name, x => ∃ p, g.production? name = some p ∧ x ∈ f.production p.id
  | .token kind, x => x = [kind]
  | .tokenName _, _ => False
  | .literal _, _ => False
  | .action _, x => x = []
  | .lookahead _, x => x = []

structure Solves (g : Grammar) (k : Nat) (f : SetFamily) : Prop where
  fits : f.Fits g
  node : ∀ id kind, g.HasKind id kind → ∀ x, x ∈ f.node id ↔ BeginsBy g k f kind x
  production : ∀ p ∈ g.productions, ∀ x, x ∈ f.production p.id ↔ x ∈ f.node p.root

theorem mem_ofKind {kind : Node.Kind} : x ∈ ofKind g k f kind ↔ BeginsBy g k f kind x := by
  cases kind with
  | sequence items => exact mem_foldl_concat_epsilon
  | choice items => simp [ofKind, BeginsBy, mem_foldl_union]
  | zeroOrMore body => exact mem_kleene
  | oneOrMore body =>
    rw [ofKind, mem_concat_of_nonempty (nonempty_kleene _ _)]
    constructor
    · rintro ⟨s, hs, t, ht, rfl⟩
      obtain ⟨ws, hws, rfl⟩ := mem_kleene.1 ht
      exact ⟨s, hs, ws, hws, (take_append_take ..).symm⟩
    · rintro ⟨w, hw, ws, hws, rfl⟩
      exact ⟨w, hw, _, mem_kleene.2 ⟨ws, hws, rfl⟩, take_append_take ..⟩
  | zeroOrOne body => simp [ofKind, BeginsBy]
  | nonterminal name =>
    rw [ofKind, BeginsBy]
    cases g.production? name <;> simp
  | token kind => exact mem_token
  | tokenName name | literal image => exact iff_of_false (not_mem_empty x) id
  | action code | lookahead la => exact mem_epsilon

theorem solves_iff_source :
    Solves g k f ↔ f.Fits g ∧ ∀ o, g.Owns o → ∀ x, x ∈ f.get o ↔ x ∈ source g k f o := by
  constructor
  · rintro ⟨hfits, hnode, hproduction⟩
    refine ⟨hfits, fun o howns x => ?_⟩
    cases o with
    | node id => exact (hnode id _ (Grammar.hasKind_kindOf howns) x).trans mem_ofKind.symm
    | production id =>
      obtain ⟨p, hp, rfl⟩ := howns.exists_production
      rw [source_production hp]
      exact hproduction p hp x
  · rintro ⟨hfits, heq⟩
    refine ⟨hfits, fun id kind hkind x => ?_, fun p hp x => ?_⟩
    · rw [← mem_ofKind, ← hkind.kindOf]
      exact heq (.node id) hkind.lt x
    · rw [← source_production hp]
      exact heq (.production p.id) (Grammar.id_lt_of_mem hp) x

end First

namespace Follow

variable {g : Grammar} {first f : SetFamily} {k : Nat} {outer : SequenceSet} {o : SetOwner}
  {x : List Nat}

/-- What can come where the items are still to come, and then what `outer` has. An item whose member
fills the bound asks nothing of the rest. -/
inductive Rest (first : SetFamily) (k : Nat) (outer : SequenceSet) : List Nat → List Nat → Prop
  | outer {x : List Nat} (hx : x ∈ outer) : Rest first k outer [] x
  | filled {i : Nat} {items s : List Nat} (hs : s ∈ first.node i) (hfull : k ≤ s.length) :
      Rest first k outer (i :: items) (s.take k)
  | item {i : Nat} {items s x : List Nat} (hs : s ∈ first.node i)
      (hx : Rest first k outer items x) : Rest first k outer (i :: items) ((s ++ x).take k)

/-- What can come after one round of a loop: more rounds, and then what `outer` has. -/
def Again (first : SetFamily) (k body : Nat) (outer : SequenceSet) (x : List Nat) : Prop :=
  ∃ ws : List (List Nat), (∀ w ∈ ws, w ∈ first.node body) ∧
    (k ≤ ws.flatten.length ∧ ws.flatten.take k = x ∨ ∃ t ∈ outer, (ws.flatten ++ t).take k = x)

/-- `Flows g first k f o x`: on one of the ways into the set of `o`, `x` comes in, if the sets are
those of `f`. The end of the input comes to the start and to what nothing refers to, and the end of
a scan to the node that is scanned. -/
inductive Flows (g : Grammar) (first : SetFamily) (k : Nat) (f : SetFamily) :
    SetOwner → List Nat → Prop
  | start {p : Production} (hp : p ∈ g.productions) (h : g.start? = some p.id) :
      Flows g first k f (.production p.id) [eofKind]
  | unreferenced {p : Production} (hp : p ∈ g.productions) (h : g.Unreferenced p) :
      Flows g first k f (.production p.id) [eofKind]
  | scanned {id nested : Nat} {la : StatedLookahead} (h : g.HasKind id (.lookahead la))
      (hnested : la.nested = some nested) : Flows g first k f (.node nested) []
  | root {p : Production} {x : List Nat} (hp : p ∈ g.productions) (hx : x ∈ f.production p.id) :
      Flows g first k f (.node p.root) x
  | item {id i : Nat} {before after x : List Nat}
      (h : g.HasKind id (.sequence (before ++ i :: after)))
      (hx : Rest first k (f.node id) after x) : Flows g first k f (.node i) x
  | alternative {id i : Nat} {items x : List Nat} (h : g.HasKind id (.choice items))
      (hi : i ∈ items) (hx : x ∈ f.node id) : Flows g first k f (.node i) x
  | zeroOrMore {id body : Nat} {x : List Nat} (h : g.HasKind id (.zeroOrMore body))
      (hx : Again first k body (f.node id) x) : Flows g first k f (.node body) x
  | oneOrMore {id body : Nat} {x : List Nat} (h : g.HasKind id (.oneOrMore body))
      (hx : Again first k body (f.node id) x) : Flows g first k f (.node body) x
  | zeroOrOne {id body : Nat} {x : List Nat} (h : g.HasKind id (.zeroOrOne body))
      (hx : x ∈ f.node id) : Flows g first k f (.node body) x
  | reference {id : Nat} {name : String} {p : Production} {x : List Nat}
      (h : g.HasKind id (.nonterminal name)) (hp : g.production? name = some p)
      (hx : x ∈ f.node id) : Flows g first k f (.production p.id) x

structure Solves (g : Grammar) (first : SetFamily) (k : Nat) (f : SetFamily) : Prop where
  fits : f.Fits g
  mem_iff : ∀ o, g.Owns o → ∀ x, x ∈ f.get o ↔ Flows g first k f o x

theorem mem_rest {items : List Nat} :
    x ∈ (ofItems first k outer items).1 ↔ Rest first k outer items x := by
  induction items generalizing x with
  | nil =>
    constructor
    · exact .outer
    · rintro ⟨hx⟩
      exact hx
  | cons i items ih =>
    rw [ofItems, mem_concat_iff]
    constructor
    · rintro ⟨s, hs, ⟨hfull, rfl⟩ | ⟨t, ht, rfl⟩⟩
      · exact .filled hs hfull
      · exact .item hs (ih.1 ht)
    · intro h
      cases h with
      | filled hs hfull => exact ⟨_, hs, .inl ⟨hfull, rfl⟩⟩
      | item hs hx => exact ⟨_, hs, .inr ⟨_, ih.2 hx, rfl⟩⟩

theorem exists_split_of_mem_ofItems {items : List Nat} {c : SetOwner × SequenceSet}
    (hc : c ∈ (ofItems first k outer items).2) :
    ∃ before i after, before ++ i :: after = items ∧
      c = (.node i, (ofItems first k outer after).1) := by
  induction items with
  | nil => cases hc
  | cons i items ih =>
    rcases List.mem_cons.1 hc with hc | hc
    · exact ⟨[], i, items, rfl, hc⟩
    · obtain ⟨before, j, after, rfl, heq⟩ := ih hc
      exact ⟨i :: before, j, after, rfl, heq⟩

theorem mem_again {body : Nat} :
    x ∈ ((first.node body).kleene k).concat outer k ↔ Again first k body outer x := by
  rw [mem_concat_iff]
  constructor
  · rintro ⟨s, hs, hx⟩
    obtain ⟨ws, hws, rfl⟩ := mem_kleene.1 hs
    refine ⟨ws, hws, ?_⟩
    rcases hx with ⟨hfull, rfl⟩ | ⟨t, ht, rfl⟩
    · rw [List.length_take] at hfull
      exact .inl ⟨by omega, by rw [List.take_take, Nat.min_self]⟩
    · exact .inr ⟨t, ht, (take_take_append ..).symm⟩
  · rintro ⟨ws, hws, hx⟩
    refine ⟨_, mem_kleene.2 ⟨ws, hws, rfl⟩, ?_⟩
    rcases hx with ⟨hfull, rfl⟩ | ⟨t, ht, rfl⟩
    · exact .inl ⟨by rw [List.length_take]; omega, by rw [List.take_take, Nat.min_self]⟩
    · exact .inr ⟨t, ht, take_take_append ..⟩

theorem flows_of_mem_contributions {id : Nat} {kind : Node.Kind} (hkind : g.HasKind id kind)
    {c : SetOwner × SequenceSet} (hc : c ∈ contributions g first k (f.node id) kind)
    (hx : x ∈ c.2) : Flows g first k f c.1 x := by
  cases kind with
  | sequence items =>
    obtain ⟨before, i, after, rfl, rfl⟩ := exists_split_of_mem_ofItems hc
    exact .item hkind (mem_rest.1 hx)
  | choice items =>
    obtain ⟨i, hi, rfl⟩ := List.mem_map.1 hc
    exact .alternative hkind hi hx
  | zeroOrMore body =>
    obtain rfl := List.mem_singleton.1 hc
    exact .zeroOrMore hkind (mem_again.1 hx)
  | oneOrMore body =>
    obtain rfl := List.mem_singleton.1 hc
    exact .oneOrMore hkind (mem_again.1 hx)
  | zeroOrOne body =>
    obtain rfl := List.mem_singleton.1 hc
    exact .zeroOrOne hkind hx
  | nonterminal name =>
    rw [contributions] at hc
    split at hc
    · next p hp =>
      obtain rfl := List.mem_singleton.1 hc
      exact .reference hkind hp hx
    · cases hc
  | lookahead la =>
    rw [contributions] at hc
    split at hc
    · next nested hnested =>
      obtain rfl := List.mem_singleton.1 hc
      rw [mem_epsilon.1 hx]
      exact .scanned hkind hnested
    · cases hc
  | token kind | tokenName name | literal image | action code => cases hc

theorem flows_of_mem_given {o' : SetOwner} {c : SetOwner × SequenceSet}
    (hc : c ∈ given g first k f o') (hx : x ∈ c.2) : Flows g first k f c.1 x := by
  have howns := owns_of_mem_given hc
  cases o' with
  | node id => exact flows_of_mem_contributions (Grammar.hasKind_kindOf howns) hc hx
  | production id =>
    obtain ⟨p, hp, rfl⟩ := howns.exists_production
    rw [given_production hp] at hc
    obtain rfl := List.mem_singleton.1 hc
    exact .root hp hx

/-- What comes into a set is there from the start or is handed down by some owner. -/
theorem flows_iff : Flows g first k f o x ↔
    (∃ p ∈ g.productions, endsInput g p = true ∧ o = .production p.id ∧ x = [eofKind]) ∨
      ∃ o', ∃ c ∈ given g first k f o', c.1 = o ∧ x ∈ c.2 := by
  constructor
  · have hnode {id : Nat} {kind : Node.Kind} (h : g.HasKind id kind)
        {c : SetOwner × SequenceSet} (hc : c ∈ contributions g first k (f.node id) kind)
        (hx : x ∈ c.2) : ∃ o', ∃ c' ∈ given g first k f o', c'.1 = c.1 ∧ x ∈ c'.2 := by
      refine ⟨.node id, c, ?_, rfl, hx⟩
      rwa [given, h.kindOf]
    intro hflows
    cases hflows with
    | start hp h => exact .inl ⟨_, hp, (endsInput_iff hp).2 (.inl h), rfl, rfl⟩
    | unreferenced hp h => exact .inl ⟨_, hp, (endsInput_iff hp).2 (.inr h), rfl, rfl⟩
    | @scanned id nested la h hnested =>
      have hc : (.node nested, epsilon) ∈ contributions g first k (f.node id) (.lookahead la) := by
        rw [contributions, hnested]
        exact List.mem_singleton_self _
      exact .inr (hnode h hc (mem_epsilon.2 rfl))
    | @root p _ hp hx =>
      refine .inr ⟨.production p.id, (.node p.root, f.production p.id), ?_, rfl, hx⟩
      rw [given_production hp]
      exact List.mem_singleton_self _
    | item h hx => exact .inr (hnode h (mem_ofItems first k _ _ _ _) (mem_rest.2 hx))
    | alternative h hi hx => exact .inr (hnode h (List.mem_map.2 ⟨_, hi, rfl⟩) hx)
    | zeroOrMore h hx | oneOrMore h hx =>
      exact .inr (hnode h (List.mem_singleton_self _) (mem_again.2 hx))
    | zeroOrOne h hx => exact .inr (hnode h (List.mem_singleton_self _) hx)
    | @reference id name p _ h hp hx =>
      have hc : (.production p.id, f.node id) ∈
          contributions g first k (f.node id) (.nonterminal name) := by
        rw [contributions, hp]
        exact List.mem_singleton_self _
      exact .inr (hnode h hc hx)
  · rintro (⟨p, hp, hends, rfl, rfl⟩ | ⟨o', c, hc, rfl, hx⟩)
    · rcases (endsInput_iff hp).1 hends with h | h
      · exact .start hp h
      · exact .unreferenced hp h
    · exact flows_of_mem_given hc hx

end Follow
end PredictiveParsing
