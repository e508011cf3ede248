import PredictiveParsing.Proofs.Trees

/-!
# Nodes know what they are parts of

Parts are listed by the node that has them, and every node carries a link to the node it is a part
of. The layout writes both at once: the items of an expression are laid out with the number that the
expression itself is going to have. So links and parts tell the same in every grammar that
declarations and validation make. Main statements: `Linked.parent_eq_some_iff` and
`Linked.parent_eq_none_iff`.
-/
namespace PredictiveParsing

theorem getElem?_concat {α : Type} {xs : List α} {x y : α} {i : Nat}
    (h : (xs ++ [x])[i]? = some y) :
    i < xs.length ∧ xs[i]? = some y ∨ i = xs.length ∧ x = y := by
  rcases Nat.lt_or_ge i xs.length with hlt | hge
  · left
    rw [List.getElem?_append_left hlt] at h
    exact ⟨hlt, h⟩
  · right
    obtain ⟨hlt, heq⟩ := List.getElem?_eq_some_iff.1 h
    rw [List.length_append, List.length_singleton] at hlt
    have hi : i = xs.length := by omega
    subst hi
    exact ⟨rfl, by simpa using heq⟩

namespace Forest

variable {roots : List Nat} {parts : List (List Nat)} {i j r : Nat} {items others : List Nat}

theorem nodup_parts (h : Forest roots parts) (hi : parts[i]? = some items) : items.Nodup := by
  induction h with
  | nil => simp at hi
  | node h ih =>
    rcases getElem?_concat hi with ⟨-, hi⟩ | ⟨-, rfl⟩
    · exact ih hi
    · exact (List.nodup_append.1 h.nodup).2.1

theorem part_unique (h : Forest roots parts) (hi : parts[i]? = some items)
    (hj : parts[j]? = some others) (hr : r ∈ items) (hr' : r ∈ others) : i = j := by
  induction h with
  | nil => simp at hi
  | node h ih =>
    -- what the newest node takes was a root, so no older node has it
    rcases getElem?_concat hi with ⟨-, hi⟩ | ⟨rfl, rfl⟩ <;>
      rcases getElem?_concat hj with ⟨-, hj⟩ | ⟨rfl, rfl⟩
    · exact ih hi hj
    · have hfree := h.root_free r (List.mem_append_right _ hr') items (List.mem_of_getElem? hi)
      exact absurd hr hfree
    · have hfree := h.root_free r (List.mem_append_right _ hr) others (List.mem_of_getElem? hj)
      exact absurd hr' hfree
    · rfl

end Forest

namespace Expr

/-- Of nodes numbered from `base` on, the roots have the given link, and each of the others has a
link to a node that it is a part of. -/
def Linked (base : Nat) (roots : List Nat) (parent : Option Nat) (ns : List Node) : Prop :=
  ∀ i link, (ns.map Node.parent)[i]? = some link →
    base + i ∈ roots ∧ link = parent ∨
      ∃ j items, (partsOf ns)[j]? = some items ∧ base + i ∈ items ∧ link = some (base + j)

section

variable {base : Nat} {roots roots' : List Nat} {parent : Option Nat} {ns ns' : List Node} {n : Node}

theorem Linked.nil : Linked base [] parent [] := by
  intro i link h
  simp at h

theorem Linked.append (h : Linked base roots parent ns)
    (h' : Linked (base + ns.length) roots' parent ns') :
    Linked base (roots ++ roots') parent (ns ++ ns') := by
  intro i link hlink
  rw [List.map_append] at hlink
  have hlength : (ns.map Node.parent).length = ns.length := List.length_map _
  rcases Nat.lt_or_ge i ns.length with hlt | hge
  · rw [List.getElem?_append_left (by omega)] at hlink
    rcases h i link hlink with ⟨hroot, rfl⟩ | ⟨j, items, hj, hmem, rfl⟩
    · exact .inl ⟨List.mem_append_left _ hroot, rfl⟩
    · have hj' := (List.getElem?_eq_some_iff.1 hj).1
      refine .inr ⟨j, items, ?_, hmem, rfl⟩
      rw [partsOf, List.map_append]
      exact (List.getElem?_append_left hj').trans hj
  · rw [List.getElem?_append_right (by omega), hlength] at hlink
    have hplace : base + ns.length + (i - ns.length) = base + i := by omega
    rcases h' _ link hlink with ⟨hroot, rfl⟩ | ⟨j, items, hj, hmem, rfl⟩
    · exact .inl ⟨List.mem_append_right _ (hplace ▸ hroot), rfl⟩
    · refine .inr ⟨ns.length + j, items, ?_, hplace ▸ hmem, by rw [Nat.add_assoc]⟩
      rw [partsOf, List.map_append, List.getElem?_append_right (by simp), List.length_map,
        Nat.add_sub_cancel_left]
      exact hj

theorem Linked.node (h : Linked base roots (some (base + ns.length)) ns)
    (hparts : n.kind.children = roots) {r : Nat} (hr : r = base + ns.length) :
    Linked base [r] n.parent (ns ++ [n]) := by
  subst hr
  intro i link hlink
  rw [List.map_append, List.map_singleton] at hlink
  rcases getElem?_concat hlink with ⟨hlt, hlink⟩ | ⟨rfl, rfl⟩
  · right
    rw [partsOf, List.map_append, List.map_singleton]
    rcases h i link hlink with ⟨hroot, rfl⟩ | ⟨j, items, hj, hmem, rfl⟩
    · exact ⟨ns.length, roots, by simp [hparts], hroot, rfl⟩
    · have hj' := (List.getElem?_eq_some_iff.1 hj).1
      exact ⟨j, items, (List.getElem?_append_left hj').trans hj, hmem, rfl⟩
  · left
    simp

theorem Linked.congr (h : Linked base roots parent ns)
    (hlinks : ns'.map Node.parent = ns.map Node.parent) (hparts : partsOf ns' = partsOf ns) :
    Linked base roots parent ns' := by
  rwa [Linked, hlinks, hparts]

end

theorem linked_leaf (base : Nat) {n : Node} (h : n.kind.children = []) :
    Linked base [base] n.parent [n] := by
  have hnone : Linked base [] (some (base + ([] : List Node).length)) [] := .nil
  exact hnone.node h rfl

mutual

theorem linked_nodesFrom (production : Nat) (e : Expr) (span : Span) (base : Nat)
    (parent : Option Nat) :
    Linked base [e.rootFrom base] parent (nodesFrom production e span base parent) := by
  match e with
  | .seq items | .choice items =>
    have hitems := linked_nodesOfAll production items span base (base + nodeCounts items)
    have hlength := length_nodesOfAll production items span base (base + nodeCounts items)
    rw [nodesFrom]
    apply Linked.node
    · rw [hlength]
      exact hitems
    · rfl
    · rw [hlength, rootFrom, nodeCount, Nat.add_succ_sub_one]
  | .star body | .plus body | .opt body | .lookahead _ _ (some body) _ =>
    have hbody := linked_nodesFrom production body span base (some (base + body.nodeCount))
    have hlength := length_nodesFrom production body span base (some (base + body.nodeCount))
    rw [nodesFrom]
    apply Linked.node
    · rw [hlength]
      exact hbody
    · rfl
    · rw [hlength, rootFrom, nodeCount, Nat.add_succ_sub_one]
  | .located inner body => exact linked_nodesFrom production body inner base parent
  | .nonterminal _ | .token _ | .literal _ | .action _ | .lookahead _ _ none _ =>
    exact linked_leaf base rfl

theorem linked_nodesOfAll (production : Nat) (es : List Expr) (span : Span) (base parent : Nat) :
    Linked base (rootsFrom es base) (some parent)
      (nodesOfAll production es span base parent) := by
  match es with
  | [] => exact .nil
  | e :: es =>
    rw [nodesOfAll, rootsFrom]
    apply (linked_nodesFrom production e span base (some parent)).append
    rw [length_nodesFrom]
    exact linked_nodesOfAll production es span (base + e.nodeCount) parent

end

end Expr

namespace Grammar

open PredictiveParsing.Expr

variable {g g' : Grammar} {id p : Nat}

def Linked (g : Grammar) : Prop :=
  Expr.Linked 0 (g.productions.toList.map Production.root) none g.nodes.toList

theorem Linked.congr (h : g.Linked) (hnodes : g'.nodes = g.nodes)
    (hproductions : g'.productions = g.productions) : g'.Linked := by
  rwa [Linked, hnodes, hproductions]

theorem Linked.declares (h : g.Linked) (hdeclares : g.Declares g') : g'.Linked := by
  cases hdeclares with
  | kept _ _ hproductions _ hnodes => exact h.congr hnodes hproductions
  | token _ _ _ => exact h.congr rfl rfl
  | @production g' name resultType span body _ hclaimed =>
    obtain ⟨hnodes, hproductions⟩ := hclaimed.keeps
    have hg' : g'.Linked := h.congr hnodes hproductions
    have hbody := linked_nodesFrom g'.productions.size body span g'.nodes.size none
    have hall := Expr.Linked.append hg' (by rwa [Nat.zero_add, Array.length_toList])
    simpa [Linked] using hall

theorem linked_declarations (options : Options) (ds : List Declaration) :
    (ds.foldl declare (empty options)).Linked := by
  refine List.foldlRecOn ds declare ?_ fun g h d _ => h.declares (g.declares_declare d)
  exact .nil

theorem Linked.finish (h : g.Linked) : g.finish.Linked :=
  h.congr g.finish_keeps.1 g.finish_keeps.2.1

theorem resolveNodes_links (g : Grammar) (ns : List Node) :
    (g.resolveNodes ns).2.1.map Node.parent = ns.map Node.parent := by
  induction ns generalizing g with
  | nil => rfl
  | cons n ns ih =>
    rw [resolveNodes]
    split <;> exact congrArg (n.parent :: ·) (ih _)

theorem Built.linked (h : g.Built) : g.Linked := by
  induction h with
  | declared options ds => exact (linked_declarations options ds).finish
  | configured _ options ih => exact ih.congr rfl rfl
  | @validated g _ ih =>
    obtain ⟨hproductions, hparts⟩ := g.resolveNodes_parts g.nodes.toList
    have hresolved := Expr.Linked.congr ih (g.resolveNodes_links g.nodes.toList) hparts
    rw [Linked, validate, resolveTokens]
    simp only [hproductions]
    exact hresolved

theorem HasPart.hasKind (h : g.HasPart p id) : g.HasKind p (g.kindOf p) := by
  apply hasKind_of_kindOf rfl
  intro hempty
  rw [HasPart, hempty] at h
  cases h

theorem Planted.parent_unique (h : g.Planted) {q : Nat} (hp : g.HasPart p id)
    (hq : g.HasPart q id) : p = q :=
  Forest.part_unique h (getElem?_partsOf hp.hasKind) (getElem?_partsOf hq.hasKind) hp hq

theorem Linked.parent_eq_some_iff (h : g.Linked) (hplanted : g.Planted) (hid : id < g.nodes.size) :
    g.nodes[id]?.bind Node.parent = some p ↔ g.HasPart p id := by
  have hnode : g.nodes[id]? = some g.nodes[id] := Array.getElem?_eq_getElem hid
  have hlink : (g.nodes.toList.map Node.parent)[id]? = some g.nodes[id].parent := by simp [hid]
  rw [hnode, Option.bind_some]
  rcases h id _ hlink with ⟨hroot, hnone⟩ | ⟨j, items, hj, hmem, hsome⟩
  · -- a root is a part of nothing
    rw [Nat.zero_add] at hroot
    obtain ⟨q, hq, hroot⟩ := List.mem_map.1 hroot
    apply iff_of_false
    · rw [hnone]
      exact nofun
    · intro hpart
      rw [← hroot] at hpart
      exact hplanted.root_free (Array.mem_toList_iff.1 hq) hpart.hasKind hpart
  · rw [Nat.zero_add] at hmem hsome
    have hpart : g.HasPart j id := by rwa [(eq_children_of_partsOf hj).2] at hmem
    rw [hsome, Option.some.injEq]
    constructor
    · intro heq
      exact heq ▸ hpart
    · intro hpart'
      exact hplanted.parent_unique hpart hpart'

theorem Linked.parent_eq_none_iff (h : g.Linked) (hplanted : g.Planted) (hid : id < g.nodes.size) :
    g.nodes[id]?.bind Node.parent = none ↔ ∃ q ∈ g.productions, q.root = id := by
  constructor
  · intro hnone
    obtain ⟨q, hq, hpath⟩ := hplanted.exists_has hid
    rcases hpath.cases_tail with hroot | ⟨p, -, hpart⟩
    · exact ⟨q, hq, hroot.symm⟩
    · rw [(h.parent_eq_some_iff hplanted hid).2 hpart] at hnone
      cases hnone
  · intro hroot
    obtain ⟨q, hq, hroot⟩ := hroot
    rw [Option.eq_none_iff_forall_ne_some]
    intro p hsome
    have hpart := (h.parent_eq_some_iff hplanted hid).1 hsome
    rw [← hroot] at hpart
    exact hplanted.root_free hq hpart.hasKind hpart

theorem Built.parent_eq_some_iff (h : g.Built) (hid : id < g.nodes.size) :
    g.nodes[id]?.bind Node.parent = some p ↔ g.HasPart p id :=
  h.linked.parent_eq_some_iff h.planted hid

end Grammar
end PredictiveParsing
