import Mathlib.Data.List.Nodup
import PredictiveParsing.Grammar.Validation
import PredictiveParsing.Proofs.Declarations
import PredictiveParsing.Proofs.Derivation

/-!
# The trees of a grammar

Nodes are laid out so that each takes the last roots before it as its parts. What comes of this is a
forest: parts come before the node that they are parts of, and every node is a root or a part of
another one, but not both. In a grammar made by declarations and validation the roots are those of
the productions. Main statement: `Built.planted`.
-/
namespace PredictiveParsing

/-- `Forest roots parts`: the node `i` has the parts `parts[i]`, and the roots are the nodes that
are no part of any, in order. A new node takes the last of them as its parts and is the last root
then. -/
inductive Forest : (roots : List Nat) → (parts : List (List Nat)) → Prop
  | nil : Forest [] []
  | node {roots items : List Nat} {parts : List (List Nat)} (h : Forest (roots ++ items) parts) :
      Forest (roots ++ [parts.length]) (parts ++ [items])

namespace Forest

variable {roots : List Nat} {parts : List (List Nat)} {i j : Nat} {items : List Nat}

theorem leaf (h : Forest roots parts) : Forest (roots ++ [parts.length]) (parts ++ [[]]) :=
  .node (by rwa [List.append_nil])

theorem root_lt (h : Forest roots parts) : ∀ r ∈ roots, r < parts.length := by
  induction h with
  | nil => simp
  | @node roots items parts _ ih =>
    intro r hr
    rw [List.length_append, List.length_singleton]
    rcases List.mem_append.1 hr with hr | hr
    · exact Nat.lt_succ_of_lt (ih r (List.mem_append_left _ hr))
    · rw [List.mem_singleton.1 hr]
      exact Nat.lt_succ_self _

theorem part_lt (h : Forest roots parts) (hi : parts[i]? = some items) : ∀ j ∈ items, j < i := by
  induction h with
  | nil => simp at hi
  | @node roots items' parts h ih =>
    rcases Nat.lt_or_ge i parts.length with hlt | hge
    · rw [List.getElem?_append_left hlt] at hi
      exact ih hi
    · rw [List.getElem?_append_right hge, List.getElem?_singleton] at hi
      split at hi
      · obtain rfl := Option.some.inj hi
        intro j hj
        exact Nat.lt_of_lt_of_le (h.root_lt j (List.mem_append_right _ hj)) hge
      · cases hi

theorem part_lt_length (h : Forest roots parts) (hitems : items ∈ parts) :
    ∀ j ∈ items, j < parts.length := by
  obtain ⟨i, hi, rfl⟩ := List.mem_iff_getElem.1 hitems
  exact fun j hj => Nat.lt_trans (h.part_lt (List.getElem?_eq_getElem hi) j hj) hi

theorem nodup (h : Forest roots parts) : roots.Nodup := by
  induction h with
  | nil => exact .nil
  | @node roots items parts h ih =>
    refine List.nodup_append.2 ⟨(List.nodup_append.1 ih).1, List.nodup_singleton _, ?_⟩
    intro r hr n hn heq
    have hlt := h.root_lt r (List.mem_append_left _ hr)
    rw [heq, List.mem_singleton.1 hn] at hlt
    exact Nat.lt_irrefl _ hlt

theorem root_free (h : Forest roots parts) : ∀ r ∈ roots, ∀ items ∈ parts, r ∉ items := by
  induction h with
  | nil => simp
  | @node roots items parts h ih =>
    intro r hr items' hitems' hmem
    rcases List.mem_append.1 hr with hr | hr
    · rcases List.mem_append.1 hitems' with hitems' | hitems'
      · exact ih r (List.mem_append_left _ hr) items' hitems' hmem
      · rw [List.mem_singleton.1 hitems'] at hmem
        exact (List.nodup_append.1 h.nodup).2.2 r hr r hmem rfl
    · -- the new node has a higher number than all parts so far
      rw [List.mem_singleton.1 hr] at hmem
      rcases List.mem_append.1 hitems' with hitems' | hitems'
      · exact Nat.lt_irrefl _ (h.part_lt_length hitems' _ hmem)
      · rw [List.mem_singleton.1 hitems'] at hmem
        exact Nat.lt_irrefl _ (h.root_lt _ (List.mem_append_right _ hmem))

theorem root_or_part (h : Forest roots parts) (hi : i < parts.length) :
    i ∈ roots ∨ ∃ (j : Nat) (items : List Nat), parts[j]? = some items ∧ i ∈ items := by
  induction h with
  | nil => simp at hi
  | @node roots items parts _ ih =>
    rw [List.length_append, List.length_singleton] at hi
    rcases Nat.lt_succ_iff_lt_or_eq.1 hi with hlt | rfl
    · rcases ih hlt with hroot | ⟨j, items', hj, hmem⟩
      · rcases List.mem_append.1 hroot with hroot | hitem
        · exact .inl (List.mem_append_left _ hroot)
        · exact .inr ⟨parts.length, items, by simp, hitem⟩
      · have hlength := (List.getElem?_eq_some_iff.1 hj).1
        exact .inr ⟨j, items', by rwa [List.getElem?_append_left hlength], hmem⟩
    · exact .inl (List.mem_append_right _ List.mem_cons_self)

end Forest

namespace Expr

def partsOf (ns : List Node) : List (List Nat) := ns.map fun n => n.kind.children

theorem forest_parent {roots items : List Nat} {parts : List (List Nat)} {ns : List Node} {n : Node}
    {r : Nat} (h : Forest (roots ++ items) (parts ++ partsOf ns)) (hitems : n.kind.children = items)
    (hr : r = parts.length + ns.length) : Forest (roots ++ [r]) (parts ++ partsOf (ns ++ [n])) := by
  have hnode := h.node
  rw [List.length_append, partsOf, List.length_map, ← hr, ← hitems] at hnode
  rwa [partsOf, List.map_append, ← List.append_assoc]

mutual

theorem forest_nodesFrom (production : Nat) (e : Expr) (span : Span) (parent : Option Nat)
    {roots : List Nat} {parts : List (List Nat)} (h : Forest roots parts) :
    Forest (roots ++ [e.rootFrom parts.length])
      (parts ++ partsOf (nodesFrom production e span parts.length parent)) := by
  match e with
  | .seq items | .choice items =>
    rw [nodesFrom]
    refine forest_parent (forest_nodesOfAll production items span _ h) rfl ?_
    rw [length_nodesOfAll, rootFrom, nodeCount, Nat.add_succ_sub_one]
  | .star body | .plus body | .opt body | .lookahead _ _ (some body) _ =>
    rw [nodesFrom]
    refine forest_parent (forest_nodesFrom production body span _ h) rfl ?_
    rw [length_nodesFrom, rootFrom, nodeCount, Nat.add_succ_sub_one]
  | .located inner body => exact forest_nodesFrom production body inner parent h
  | .nonterminal _ | .token _ | .literal _ | .action _ | .lookahead _ _ none _ => exact h.leaf

theorem forest_nodesOfAll (production : Nat) (es : List Expr) (span : Span) (parent : Nat)
    {roots : List Nat} {parts : List (List Nat)} (h : Forest roots parts) :
    Forest (roots ++ rootsFrom es parts.length)
      (parts ++ partsOf (nodesOfAll production es span parts.length parent)) := by
  match es with
  | [] => simpa [rootsFrom, nodesOfAll, partsOf] using h
  | e :: es =>
    have hrest := forest_nodesOfAll production es span parent
      (forest_nodesFrom production e span (some parent) h)
    have hlength :
        (parts ++ partsOf (nodesFrom production e span parts.length (some parent))).length =
          parts.length + e.nodeCount := by
      rw [List.length_append, partsOf, List.length_map, length_nodesFrom]
    rw [hlength] at hrest
    rw [rootsFrom, nodesOfAll, partsOf, List.map_append, ← List.append_assoc, List.append_cons]
    exact hrest

end

end Expr

namespace Grammar

open PredictiveParsing.Expr

variable {g g' : Grammar}

def Planted (g : Grammar) : Prop :=
  Forest (g.productions.toList.map Production.root) (partsOf g.nodes.toList)

theorem Planted.congr (h : g.Planted) (hnodes : g'.nodes = g.nodes)
    (hproductions : g'.productions = g.productions) : g'.Planted := by
  rwa [Planted, hnodes, hproductions]

theorem Planted.declares (h : g.Planted) (hdeclares : g.Declares g') : g'.Planted := by
  cases hdeclares with
  | kept _ _ hproductions _ hnodes => exact h.congr hnodes hproductions
  | token _ _ _ => exact h.congr rfl rfl
  | @production g' name resultType span body _ hclaimed =>
    obtain ⟨hnodes, hproductions⟩ := hclaimed.keeps
    have hg' : g'.Planted := h.congr hnodes hproductions
    have hbody := forest_nodesFrom g'.productions.size body span none hg'
    have hlength : (partsOf g'.nodes.toList).length = g'.nodes.size := by simp [partsOf]
    rw [hlength] at hbody
    simpa [Planted, partsOf] using hbody

theorem planted_declarations (options : Options) (ds : List Declaration) :
    (ds.foldl declare (empty options)).Planted := by
  refine List.foldlRecOn ds declare ?_ fun g h d _ => h.declares (g.declares_declare d)
  exact .nil

theorem Planted.finish (h : g.Planted) : g.finish.Planted :=
  h.congr g.finish_keeps.1 g.finish_keeps.2.1

theorem children_of_resolution {kind : Node.Kind} (h : g.resolution kind ≠ .other) :
    kind.children = [] := by
  cases kind <;> first | rfl | exact absurd rfl h

theorem resolveNodes_parts (g : Grammar) (ns : List Node) :
    (g.resolveNodes ns).1.productions = g.productions ∧
      partsOf (g.resolveNodes ns).2.1 = partsOf ns := by
  induction ns generalizing g with
  | nil => exact ⟨rfl, rfl⟩
  | cons n ns ih =>
    have hother : partsOf (n :: (g.resolveNodes ns).2.1) = partsOf (n :: ns) :=
      congrArg (n.kind.children :: ·) (ih g).2
    have htoken (g : Grammar) (kind : Nat) (h : n.kind.children = []) :
        partsOf ({ n with kind := .token kind } :: (g.resolveNodes ns).2.1) =
          partsOf (n :: ns) := by
      have hcons : partsOf (n :: ns) = [] :: partsOf ns := congrArg (· :: partsOf ns) h
      rw [hcons, ← (ih g).2]
      rfl
    have hleaf (hne : g.resolution n.kind ≠ .other) : n.kind.children = [] :=
      children_of_resolution hne
    rw [resolveNodes]
    split
    · exact ⟨(ih g).1, hother⟩
    · next kind hkind => exact ⟨(ih g).1, htoken g kind (hleaf (by simp [hkind]))⟩
    · next image himage => exact ⟨(ih _).1, htoken _ _ (hleaf (by simp [himage]))⟩
    · exact ⟨(ih g).1, hother⟩

/-- A grammar as declarations make it, with its names resolved any number of times and its options
set as one likes. -/
inductive Built : Grammar → Prop
  | declared (options : Options) (ds : List Declaration) : Built (ofDeclarations options ds)
  | configured {g : Grammar} (h : Built g) (options : Options) :
      Built { g with options := options }
  | validated {g : Grammar} (h : Built g) : Built g.validate.1

theorem Built.planted (h : g.Built) : g.Planted := by
  induction h with
  | declared options ds => exact (planted_declarations options ds).finish
  | configured _ options ih => exact ih.congr rfl rfl
  | @validated g _ ih =>
    obtain ⟨hproductions, hparts⟩ := g.resolveNodes_parts g.nodes.toList
    rw [Planted, validate, resolveTokens]
    simp only [hproductions, hparts]
    exact ih

def HasPart (g : Grammar) (a b : Nat) : Prop := b ∈ (g.kindOf a).children

def Has (g : Grammar) (p : Production) (id : Nat) : Prop :=
  Relation.ReflTransGen g.HasPart p.root id

section

variable {p q : Production} {id i : Nat} {kind : Node.Kind}

theorem getElem?_partsOf (h : g.HasKind id kind) :
    (partsOf g.nodes.toList)[id]? = some kind.children := by
  obtain ⟨n, hn, rfl⟩ := Option.map_eq_some_iff.1 h
  simp [partsOf, hn]

theorem eq_children_of_partsOf {items : List Nat}
    (h : (partsOf g.nodes.toList)[id]? = some items) :
    id < g.nodes.size ∧ items = (g.kindOf id).children := by
  have hlt : id < g.nodes.size := by simpa [partsOf] using (List.getElem?_eq_some_iff.1 h).1
  exact ⟨hlt, Option.some.inj (h.symm.trans (getElem?_partsOf (hasKind_kindOf hlt)))⟩

theorem mem_roots (hp : p ∈ g.productions) :
    p.root ∈ g.productions.toList.map Production.root :=
  List.mem_map_of_mem (Array.mem_toList_iff.2 hp)

variable (h : g.Planted)

include h

theorem Planted.part_lt (hkind : g.HasKind id kind) (hi : i ∈ kind.children) : i < id :=
  Forest.part_lt h (getElem?_partsOf hkind) i hi

theorem Planted.root_lt (hp : p ∈ g.productions) : p.root < g.nodes.size := by
  have hlt := Forest.root_lt h p.root (mem_roots hp)
  simpa [partsOf] using hlt

theorem Planted.root_free (hp : p ∈ g.productions) (hkind : g.HasKind id kind) :
    p.root ∉ kind.children :=
  Forest.root_free h p.root (mem_roots hp) _ (List.mem_of_getElem? (getElem?_partsOf hkind))

theorem Planted.eq_of_root_eq (hp : p ∈ g.productions) (hq : q ∈ g.productions)
    (heq : p.root = q.root) : p = q :=
  List.inj_on_of_nodup_map (Forest.nodup h) (Array.mem_toList_iff.2 hp) (Array.mem_toList_iff.2 hq)
    heq

theorem Planted.exists_has (hid : id < g.nodes.size) : ∃ p ∈ g.productions, g.Has p id := by
  -- a node that is no root is a part of one with a higher number
  induction hn : g.nodes.size - id using Nat.strongRecOn generalizing id with
  | ind n ih =>
    have hlength : id < (partsOf g.nodes.toList).length := by simpa [partsOf] using hid
    rcases Forest.root_or_part h hlength with hroot | ⟨j, items, hj, hmem⟩
    · obtain ⟨p, hp, rfl⟩ := List.mem_map.1 hroot
      exact ⟨p, Array.mem_toList_iff.1 hp, .refl⟩
    · obtain ⟨hlt, hitems⟩ := eq_children_of_partsOf hj
      rw [hitems] at hmem
      have hbelow := h.part_lt (hasKind_kindOf hlt) hmem
      obtain ⟨p, hp, hpath⟩ := ih (g.nodes.size - j) (by omega) hlt rfl
      exact ⟨p, hp, hpath.tail hmem⟩

end

end Grammar
end PredictiveParsing
