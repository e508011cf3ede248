import Mathlib.Logic.Basic
import PredictiveParsing.Proofs.SetFamilies
import PredictiveParsing.Sets.Basic

/-!
# What is marked as nullable derives the empty text

A pass visits all nodes and productions, and a visit marks no other than the one visited, so the
passes end with one in which no visit has an effect. What is marked by then is closed under all the
ways in which a node derives the empty text, and nothing else was ever marked. Main statement:
`nullable_iff`.
-/
namespace PredictiveParsing

theorem Grammar.derivesAll_nil {g : Grammar} {items : List Nat}
    (h : ∀ i ∈ items, g.Derives i []) : g.DerivesAll items [] := by
  induction items with
  | nil => exact .nil
  | cons i items ih =>
    simp only [List.mem_cons, forall_eq_or_imp] at h
    exact (ih h.2).cons h.1

open PredictiveParsing.SetFamily

namespace Nullable

variable {g : Grammar} {n n' : Nullable} {o : SetOwner}

def nodeStep (g : Grammar) (n : Nullable) (id : Nat) : Nullable :=
  n.markNode id (n.ofKind g (g.kindOf id))

def productionStep (n : Nullable) (p : Production) : Nullable :=
  n.markProduction p.id (n.node p.root)

theorem pass_eq (g : Grammar) (n : Nullable) :
    pass g n = g.productions.toList.foldl productionStep (g.nodeIds.foldl (nodeStep g) n) :=
  (Array.foldl_toList productionStep).symm

def get (n : Nullable) : SetOwner → Bool
  | .node id => n.node id
  | .production id => n.production id

structure Fits (g : Grammar) (n : Nullable) : Prop where
  nodes : n.nodes.size = g.nodes.size
  productions : n.productions.size = g.productions.size

def source (g : Grammar) (n : Nullable) : SetOwner → Bool
  | .node id => n.ofKind g (g.kindOf id)
  | .production id => g.productions[id]?.any fun p => n.node p.root

def visit (g : Grammar) (n : Nullable) : SetOwner → Nullable
  | .node id => n.markNode id (source g n (.node id))
  | .production id => n.markProduction id (source g n (.production id))

theorem source_production {p : Production} (hp : p ∈ g.productions) :
    source g n (.production p.id) = n.node p.root := by
  rw [source, Grammar.getElem?_id hp]
  rfl

theorem pass_eq_visits (g : Grammar) (n : Nullable) :
    pass g n = (g.nodeOwners ++ g.productionOwners).foldl (visit g) n := by
  have hproduction (n : Nullable) (p : Production) (hp : p ∈ g.productions) :
      visit g n (.production p.id) = productionStep n p := by
    rw [visit, source_production hp, productionStep]
  rw [pass_eq, List.foldl_append, Grammar.foldl_productionOwners hproduction, Grammar.nodeOwners,
    List.foldl_map]
  rfl

theorem not_get_none (g : Grammar) (o : SetOwner) : ¬ (none g).get o = true := by
  rw [Bool.not_eq_true]
  cases o with
  | node id => exact getD_replicate g.nodes.size id false
  | production id => exact getD_replicate g.productions.size id false

theorem Fits.none (g : Grammar) : (Nullable.none g).Fits g :=
  ⟨Array.size_replicate, Array.size_replicate⟩

theorem Fits.visit (h : n.Fits g) (o : SetOwner) : (visit g n o).Fits g := by
  cases o with
  | node id => exact ⟨(Array.size_modify ..).trans h.nodes, h.productions⟩
  | production id => exact ⟨h.nodes, (Array.size_modify ..).trans h.productions⟩

theorem getD_modify {marks : Array Bool} {i j : Nat} {value : Bool} :
    (marks.modify i (· || value))[j]?.getD false = true ↔
      marks[j]?.getD false = true ∨ j = i ∧ i < marks.size ∧ value = true := by
  rw [Array.getElem?_modify]
  by_cases hij : i = j
  · subst hij
    by_cases hi : i < marks.size <;> simp [hi]
  · simp [hij, Ne.symm hij]

theorem get_visit (h : n.Fits g) {o' : SetOwner} : (visit g n o).get o' = true ↔
    n.get o' = true ∨ o' = o ∧ g.Owns o ∧ source g n o = true := by
  cases o with
  | node id =>
    cases o' with
    | node id' =>
      simp only [SetOwner.node.injEq, Grammar.Owns, ← h.nodes]
      exact getD_modify
    | production id' => simp [get, visit, markNode, production]
  | production id =>
    cases o' with
    | node id' => simp [get, visit, markProduction, node]
    | production id' =>
      simp only [SetOwner.production.injEq, Grammar.Owns, ← h.productions]
      exact getD_modify

theorem Fits.owns (h : n.Fits g) (ho : n.get o = true) : g.Owns o := by
  have hlt {marks : Array Bool} {i : Nat} (hi : marks[i]?.getD false = true) : i < marks.size :=
    lt_size_of_getD_ne (d := false) (by simp [hi])
  cases o with
  | node id => exact Nat.lt_of_lt_of_eq (hlt ho) h.nodes
  | production id => exact Nat.lt_of_lt_of_eq (hlt ho) h.productions

theorem eq_of_get_iff (h : n.Fits g) (h' : n'.Fits g)
    (hiff : ∀ o, n.get o = true ↔ n'.get o = true) : n = n' := by
  obtain ⟨nodes, productions⟩ := n
  obtain ⟨nodes', productions'⟩ := n'
  have hnodes : nodes = nodes' := eq_of_getD_eq (h.nodes.trans h'.nodes.symm) fun i =>
    Bool.eq_iff_iff.2 (hiff (.node i))
  have hproductions : productions = productions' :=
    eq_of_getD_eq (h.productions.trans h'.productions.symm) fun i =>
      Bool.eq_iff_iff.2 (hiff (.production i))
  rw [hnodes, hproductions]

def growth (g : Grammar) : Growth Nullable SetOwner SetOwner where
  Fits n := n.Fits g
  Holds n o := n.get o = true
  Place := g.Owns
  Gives n o o' := o' = o ∧ g.Owns o ∧ source g n o = true
  start := none g
  visit := visit g
  possible := ownersOf g
  fits_start := .none g
  fits_visit o h := h.visit o
  ext := eq_of_get_iff
  holds_visit h := get_visit h
  place_of_gives h := h.2.1
  possible_start h := absurd h (not_get_none g _)
  possible_gives _ h := mem_ownersOf.2 (h.1 ▸ h.2.1)

theorem card_ownersOf_lt (g : Grammar) :
    (ownersOf g).card + 1 < 2 ^ (g.nodes.size + g.productions.size + 2) := by
  have hcard := card_ownersOf_le g
  have hpow := Nat.lt_two_pow_self (n := g.nodes.size + g.productions.size + 2)
  omega

structure Sound (g : Grammar) (n : Nullable) : Prop where
  nodes_size : n.nodes.size = g.nodes.size
  productions_size : n.productions.size = g.productions.size
  node : ∀ id, n.node id = true → g.Derives id []
  production : ∀ id, n.production id = true → ∃ p ∈ g.productions, p.id = id ∧ g.Derives p.root []

theorem sound_none (g : Grammar) : (none g).Sound g where
  nodes_size := Array.size_replicate
  productions_size := Array.size_replicate
  node id h := absurd h (not_get_none g (.node id))
  production id h := absurd h (not_get_none g (.production id))

theorem Sound.derives_ofKind (h : n.Sound g) {id : Nat} {kind : Node.Kind}
    (hkind : g.HasKind id kind) (hempty : n.ofKind g kind = true) : g.Derives id [] := by
  have hnone (body : Nat) : ∀ w ∈ ([] : List (List Nat)), g.Derives body w := by simp
  cases kind with
  | sequence items =>
    apply Grammar.DerivesAll.derives _ hkind
    apply Grammar.derivesAll_nil
    intro i hi
    exact h.node i (List.all_eq_true.1 hempty i hi)
  | choice items =>
    obtain ⟨i, hi, hnode⟩ := List.any_eq_true.1 hempty
    exact .choice hkind hi (h.node i hnode)
  | zeroOrMore body => exact .zeroOrMore hkind (hnone body)
  | oneOrMore body => exact .oneOrMore hkind (h.node body hempty) (hnone body)
  | zeroOrOne body => exact .skipped hkind
  | nonterminal name =>
    simp only [ofKind, Option.any_eq_true] at hempty
    obtain ⟨p, hp, hmarked⟩ := hempty
    obtain ⟨q, hq, hid, hderives⟩ := h.production p.id hmarked
    obtain rfl := Grammar.eq_of_id_eq hq (Grammar.mem_of_production? hp) hid
    exact .nonterminal hkind hp hderives
  | action code => exact .action hkind
  | lookahead la => exact .lookahead hkind
  | token kind | tokenName name | literal image => cases hempty

theorem Sound.nodeStep (h : n.Sound g) {id : Nat} (hid : id < g.nodes.size) :
    (nodeStep g n id).Sound g where
  nodes_size := (Array.size_modify ..).trans h.nodes_size
  productions_size := h.productions_size
  node j hj := by
    rcases getD_modify.1 hj with hj | ⟨rfl, -, hempty⟩
    · exact h.node j hj
    · exact h.derives_ofKind (Grammar.hasKind_kindOf hid) hempty
  production := h.production

theorem Sound.productionStep (h : n.Sound g) {p : Production} (hp : p ∈ g.productions) :
    (productionStep n p).Sound g where
  nodes_size := h.nodes_size
  productions_size := (Array.size_modify ..).trans h.productions_size
  node := h.node
  production id hid := by
    rcases getD_modify.1 hid with hid | ⟨rfl, -, hroot⟩
    · exact h.production id hid
    · exact ⟨p, hp, rfl, h.node p.root hroot⟩

theorem Sound.pass (h : n.Sound g) : (pass g n).Sound g := by
  rw [pass_eq]
  refine List.foldlRecOn _ _ ?_ fun n hn p hp => hn.productionStep (Array.mem_toList_iff.1 hp)
  exact List.foldlRecOn _ _ h fun n hn id hid => hn.nodeStep (List.mem_range.1 hid)

structure Closed (g : Grammar) (n : Nullable) : Prop where
  node : ∀ id kind, g.HasKind id kind → n.ofKind g kind = true → n.node id = true
  production : ∀ p ∈ g.productions, n.node p.root = true → n.production p.id = true

theorem Closed.node_of_derives (h : Closed g n) {id : Nat} {w : List Nat} (hw : g.Derives id w)
    (hempty : w = []) : n.node id = true := by
  induction hw with
  | @sequence id parts hkind hparts ih =>
    apply h.node id _ hkind
    simp only [ofKind, List.all_map, List.all_eq_true]
    intro p hp
    exact ih p hp (List.flatMap_eq_nil_iff.1 hempty p hp)
  | choice hkind hi _ ih =>
    apply h.node _ _ hkind
    exact List.any_eq_true.2 ⟨_, hi, ih hempty⟩
  | zeroOrMore hkind => exact h.node _ _ hkind rfl
  | oneOrMore hkind _ _ ih =>
    apply h.node _ _ hkind
    exact ih (List.append_eq_nil_iff.1 hempty).1
  | skipped hkind => exact h.node _ _ hkind rfl
  | taken hkind => exact h.node _ _ hkind rfl
  | @nonterminal id name p w hkind hp _ ih =>
    apply h.node _ _ hkind
    simp only [ofKind, hp, Option.any_some]
    exact h.production p (Grammar.mem_of_production? hp) (ih hempty)
  | token => cases hempty
  | action hkind => exact h.node _ _ hkind rfl
  | lookahead hkind => exact h.node _ _ hkind rfl

theorem ofGrammar_exact (g : Grammar) :
    (ofGrammar g).value.Sound g ∧ Closed g (ofGrammar g).value := by
  refine ⟨Saturation.run_keeps (fun n h => h.pass) (sound_none g) _, ?_⟩
  obtain ⟨-, hclosed⟩ := (growth g).run_closed (pass_eq_visits g) g.covers_nodes_productions
    (card_ownersOf_lt g)
  constructor
  · intro id kind hkind hempty
    rw [← hkind.kindOf] at hempty
    exact hclosed (.node id) (.node id) ⟨rfl, hkind.lt, hempty⟩
  · intro p hp hroot
    rw [← source_production hp] at hroot
    exact hclosed (.production p.id) (.production p.id) ⟨rfl, Grammar.id_lt_of_mem hp, hroot⟩

end Nullable

theorem Grammar.nullable_iff (g : Grammar) (id : Nat) :
    g.computeSets.1.nullable.node id = true ↔ g.Derives id [] := by
  obtain ⟨hsound, hclosed⟩ := Nullable.ofGrammar_exact g
  exact ⟨hsound.node id, fun h => hclosed.node_of_derives h rfl⟩

end PredictiveParsing
