import PredictiveParsing.Proofs.ParentLinks
import PredictiveParsing.Proofs.ResolvedReferences

/-!
# Trees in post-order

Declarations put the nodes of each production into one block behind those of the productions before
it, parts before what they are parts of, so that the root is the last node of the block. A walk down
from the root therefore ends, and it comes by every node of the block once. Both ways of telling a
tree are followed here: the parts that a node lists and the link that it carries. Main statement:
`postOrdered_declarations`.
-/
namespace PredictiveParsing

/-- Trees that stand side by side: each of them lists, in some order, the numbers from where the one
before it ends up to its own root. -/
inductive SideBySide (tree : Nat → List Nat) :
    (start : Nat) → (roots : List Nat) → (stop : Nat) → Prop
  | nil {start : Nat} : SideBySide tree start [] start
  | cons {start r stop : Nat} {roots : List Nat} (hle : start ≤ r)
      (htree : (tree r).Perm (List.range' start (r + 1 - start)))
      (hrest : SideBySide tree (r + 1) roots stop) : SideBySide tree start (r :: roots) stop

namespace SideBySide

variable {tree : Nat → List Nat} {start mid stop r : Nat} {roots items : List Nat}

theorem le (h : SideBySide tree start roots stop) : start ≤ stop := by
  induction h with
  | nil => exact Nat.le_refl _
  | cons hle _ _ ih => omega

theorem perm (h : SideBySide tree start roots stop) :
    (roots.flatMap tree).Perm (List.range' start (stop - start)) := by
  induction h with
  | nil => simp
  | @cons start r stop roots hle htree hrest ih =>
    have hrest := hrest.le
    have hsum : stop - start = (r + 1 - start) + (stop - (r + 1)) := by omega
    have hnext : start + (r + 1 - start) = r + 1 := by omega
    rw [List.flatMap_cons, hsum, ← List.range'_append_1, hnext]
    exact htree.append ih

theorem exists_range (h : SideBySide tree start roots stop) (hr : r ∈ roots) :
    ∃ first ≤ r, (tree r).Perm (List.range' first (r + 1 - first)) := by
  induction h with
  | nil => cases hr
  | @cons start _ _ _ hle htree _ ih =>
    rcases List.mem_cons.1 hr with heq | hr
    · subst heq
      exact ⟨start, hle, htree⟩
    · exact ih hr

theorem append (h : SideBySide tree start roots mid) (h' : SideBySide tree mid items stop) :
    SideBySide tree start (roots ++ items) stop := by
  induction h with
  | nil => exact h'
  | cons hle htree _ ih => exact .cons hle htree (ih h')

theorem exists_split (h : SideBySide tree start (roots ++ items) stop) :
    ∃ mid, SideBySide tree start roots mid ∧ SideBySide tree mid items stop := by
  induction roots generalizing start with
  | nil => exact ⟨start, .nil, h⟩
  | cons r roots ih =>
    cases h with
    | cons hle htree hrest =>
      obtain ⟨mid, hroots, hitems⟩ := ih hrest
      exact ⟨mid, .cons hle htree hroots, hitems⟩

theorem node (h : SideBySide tree start items stop)
    (htree : tree stop = stop :: items.flatMap tree) :
    SideBySide tree start [stop] (stop + 1) := by
  have hle := h.le
  have hsize : stop + 1 - start = stop - start + 1 := by omega
  have hlast : start + (stop - start) = stop := by omega
  refine .cons hle ?_ .nil
  rw [htree, hsize, List.range'_1_concat, hlast]
  exact (h.perm.cons stop).trans (List.perm_append_singleton stop _).symm

end SideBySide

namespace Forest

variable {roots roots' items : List Nat} {parts parts' : List (List Nat)} {i j : Nat}

theorem sideBySide {tree : Nat → List Nat} (h : Forest roots parts)
    (htree : ∀ i items, parts[i]? = some items → tree i = i :: items.flatMap tree) :
    SideBySide tree 0 roots parts.length := by
  induction h with
  | nil => exact .nil
  | @node roots items parts _ ih =>
    have hbefore : SideBySide tree 0 (roots ++ items) parts.length := by
      apply ih
      intro i items hi
      have hlt := (List.getElem?_eq_some_iff.1 hi).1
      exact htree i items ((List.getElem?_append_left hlt).trans hi)
    -- the trees that the new node takes are the last ones, and it stands right behind them
    obtain ⟨mid, hroots, hitems⟩ := hbefore.exists_split
    have hnew := htree parts.length items (by simp)
    rw [List.length_append, List.length_singleton]
    exact hroots.append (hitems.node hnew)

theorem length_le_of_added (h : Forest roots parts)
    (h' : Forest (roots ++ roots') (parts ++ parts')) (hj : parts'[j]? = some items)
    (hi : i ∈ items) : parts.length ≤ i := by
  have hplace : (parts ++ parts')[parts.length + j]? = some items := by
    rwa [List.getElem?_append_right (Nat.le_add_right ..), Nat.add_sub_cancel_left]
  -- a node before them is still a root or has what it is a part of already
  by_contra hlt
  rcases h.root_or_part (Nat.lt_of_not_le hlt) with hroot | ⟨l, others, hl, hmem⟩
  · have hitems := List.mem_append_right parts (List.mem_of_getElem? hj)
    exact h'.root_free i (List.mem_append_left _ hroot) items hitems hi
  · have hbelow := (List.getElem?_eq_some_iff.1 hl).1
    have heq := h'.part_unique hplace ((List.getElem?_append_left hbelow).trans hl) hi hmem
    omega

end Forest

namespace Expr

theorem nodeCount_pos (e : Expr) : 0 < e.nodeCount := by
  match e with
  | .located _ body => exact nodeCount_pos body
  | .seq _ | .choice _ | .star _ | .plus _ | .opt _ | .lookahead _ _ (some _) _ =>
    exact Nat.succ_pos _
  | .nonterminal _ | .token _ | .literal _ | .action _ | .lookahead _ _ none _ =>
    exact Nat.one_pos

theorem le_rootFrom (e : Expr) (base : Nat) : base ≤ e.rootFrom base := by
  have hpos := e.nodeCount_pos
  rw [rootFrom]
  omega

theorem getElem?_partsOf_node {ns : List Node} {n : Node} {i : Nat} (h : ns[i]? = some n) :
    (partsOf ns)[i]? = some n.kind.children := by
  rw [partsOf, List.getElem?_map, h]
  rfl

end Expr

namespace Grammar

open PredictiveParsing.Expr

variable {g g' : Grammar} {id i : Nat} {n : Node} {stack listed : List Nat}

theorem kindOf_of_getElem? (h : g.nodes[id]? = some n) : g.kindOf id = n.kind := by
  rw [kindOf, h]
  rfl

theorem hasPart_iff : g.HasPart id i ↔ ∃ n, g.nodes[id]? = some n ∧ i ∈ n.kind.children := by
  constructor
  · intro h
    have hnode := Array.getElem?_eq_getElem h.hasKind.lt
    rw [HasPart, kindOf_of_getElem? hnode] at h
    exact ⟨_, hnode, h⟩
  · intro h
    obtain ⟨n, hn, hi⟩ := h
    rwa [HasPart, kindOf_of_getElem? hn]

theorem Planted.lt_of_hasPart (h : g.Planted) (hpart : g.HasPart id i) : i < id :=
  h.part_lt hpart.hasKind hpart

/-- Parts have lower numbers, so a node has no more levels below it than its number says. -/
theorem Planted.subtreeWithin_succ (h : g.Planted) (fuel : Nat) (hid : id ≤ fuel) :
    g.subtreeWithin (fuel + 1) id = g.subtreeWithin fuel id := by
  induction fuel generalizing id with
  | zero =>
    have hleaf : (g.kindOf id).children = [] := by
      apply List.eq_nil_iff_forall_not_mem.2
      intro i hi
      have hlt := h.lt_of_hasPart hi
      omega
    simp [subtreeWithin, hleaf]
  | succ fuel ih =>
    rw [subtreeWithin, subtreeWithin]
    apply congrArg (id :: ·)
    apply List.flatMap_congr
    intro i hi
    have hlt := h.lt_of_hasPart hi
    exact ih (by omega)

theorem Planted.subtree_eq (h : g.Planted) (hid : id < g.nodes.size) :
    g.subtree id = id :: (g.kindOf id).children.flatMap g.subtree := by
  obtain ⟨fuel, hfuel⟩ : ∃ fuel, g.nodes.size = fuel + 1 := ⟨g.nodes.size - 1, by omega⟩
  rw [subtree, hfuel, subtreeWithin]
  apply congrArg (id :: ·)
  apply List.flatMap_congr
  intro i hi
  have hlt := h.lt_of_hasPart hi
  rw [subtree, hfuel, h.subtreeWithin_succ fuel (by omega)]

example : (ofDeclarations {} [.production "P" none .none
    (.choice [.seq [.token "X", .token "Y"], .token "Z"])]).subtree 4 = [4, 2, 0, 1, 3] := by
  decide

theorem Planted.sideBySide (h : g.Planted) :
    SideBySide g.subtree 0 (g.productions.toList.map Production.root) g.nodes.size := by
  have htree (i : Nat) (items : List Nat) (hi : (partsOf g.nodes.toList)[i]? = some items) :
      g.subtree i = i :: items.flatMap g.subtree := by
    obtain ⟨hlt, hitems⟩ := eq_children_of_partsOf hi
    rw [hitems]
    exact h.subtree_eq hlt
  simpa [partsOf] using Forest.sideBySide h htree

/-- A walk over trees with a stack of the nodes to be visited: the one on top is listed, and its
parts take its place. -/
inductive Walks (g : Grammar) : (stack listed : List Nat) → Prop
  | done : Walks g [] []
  | visit {id : Nat} {n : Node} {stack listed : List Nat} (hn : g.nodes[id]? = some n)
      (h : Walks g (n.kind.children ++ stack) listed) : Walks g (id :: stack) (id :: listed)

theorem Walks.unique {listed' : List Nat} (h : g.Walks stack listed) (h' : g.Walks stack listed') :
    listed = listed' := by
  induction h generalizing listed' with
  | done =>
    cases h'
    rfl
  | @visit id _ _ _ hn _ ih =>
    cases h' with
    | visit hn' h' =>
      rw [hn, Option.some.injEq] at hn'
      subst hn'
      exact congrArg (id :: ·) (ih h')

theorem Walks.items {items : List Nat} (h : g.Walks stack listed)
    (hitems : ∀ i ∈ items, ∀ stack listed, g.Walks stack listed →
      g.Walks (i :: stack) (g.subtree i ++ listed)) :
    g.Walks (items ++ stack) (items.flatMap g.subtree ++ listed) := by
  induction items with
  | nil => exact h
  | cons i items ih =>
    rw [List.flatMap_cons, List.append_assoc]
    obtain ⟨hi, hitems⟩ := List.forall_mem_cons.1 hitems
    exact hi _ _ (ih hitems)

theorem Planted.walks (h : g.Planted) (hid : id < g.nodes.size) (hrest : g.Walks stack listed) :
    g.Walks (id :: stack) (g.subtree id ++ listed) := by
  induction id using Nat.strongRecOn generalizing stack listed with
  | ind id ih =>
    rw [h.subtree_eq hid, List.cons_append]
    have hnode := Array.getElem?_eq_getElem hid
    apply Walks.visit hnode
    rw [← kindOf_of_getElem? hnode]
    apply hrest.items
    intro i hi stack listed hrest
    have hlt := h.lt_of_hasPart hi
    exact ih i hlt (Nat.lt_trans hlt hid) hrest

theorem Planted.walks_iff (h : g.Planted) (hid : id < g.nodes.size) :
    g.Walks [id] listed ↔ listed = g.subtree id := by
  have hwalk := h.walks hid .done
  rw [List.append_nil] at hwalk
  constructor
  · intro hlisted
    exact hlisted.unique hwalk
  · intro heq
    rwa [heq]

structure Owned (g : Grammar) : Prop where
  root : ∀ p ∈ g.productions, ∀ n, g.nodes[p.root]? = some n → n.production = p.id
  part : ∀ (id : Nat) (n : Node), g.nodes[id]? = some n → ∀ i ∈ n.kind.children,
    ∀ m, g.nodes[i]? = some m → m.production = n.production

theorem Owned.congr (h : g.Owned) (hnodes : g'.nodes = g.nodes)
    (hproductions : g'.productions = g.productions) : g'.Owned where
  root p hp n hn := h.root p (hproductions ▸ hp) n (hnodes ▸ hn)
  part id n hn i hi m hm := h.part id n (hnodes ▸ hn) i hi m (hnodes ▸ hm)

theorem getElem?_append_toArray {xs : Array Node} {ns : List Node}
    (h : (xs ++ ns.toArray)[id]? = some n) :
    id < xs.size ∧ xs[id]? = some n ∨ xs.size ≤ id ∧ ns[id - xs.size]? = some n := by
  rw [Array.getElem?_append] at h
  split at h
  · next hlt => exact .inl ⟨hlt, h⟩
  · next hge => exact .inr ⟨Nat.le_of_not_lt hge, by simpa using h⟩

theorem Owned.declares (h : g.Owned) (hplanted : g.Planted) (hdeclares : g.Declares g') :
    g'.Owned := by
  cases hdeclares with
  | kept _ _ hproductions _ hnodes => exact h.congr hnodes hproductions
  | token _ _ _ => exact h.congr rfl rfl
  | @production g' name resultType span body _ hclaimed =>
    obtain ⟨hnodes, hproductions⟩ := hclaimed.keeps
    have hg' : g'.Owned := h.congr hnodes hproductions
    have hplanted' : g'.Planted := hplanted.congr hnodes hproductions
    have hsize : (partsOf g'.nodes.toList).length = g'.nodes.size := by simp [partsOf]
    have hforest := forest_nodesFrom g'.productions.size body span none hplanted'
    have hlaid := laid_nodesFrom g'.productions.size body span g'.nodes.size none
    rw [hsize] at hforest
    constructor
    · intro p hp n hn
      rcases Array.mem_push.1 hp with hp | hp <;>
        rcases getElem?_append_toArray hn with ⟨hlt, hn⟩ | ⟨hge, hn⟩
      · exact hg'.root p hp n hn
      · exact absurd (hplanted'.root_lt hp) (Nat.not_lt.2 hge)
      · rw [hp] at hlt
        exact absurd (body.le_rootFrom g'.nodes.size) (Nat.not_le.2 hlt)
      · rw [hp]
        exact (hlaid n (List.mem_of_getElem? hn)).1
    · intro id n hn i hi m hm
      rcases getElem?_append_toArray hn with ⟨hlt, hn⟩ | ⟨-, hn⟩ <;>
        rcases getElem?_append_toArray hm with ⟨hlt', hm⟩ | ⟨hge', hm⟩
      · exact hg'.part id n hn i hi m hm
      · -- a part has a lower number
        have hbelow := hplanted'.lt_of_hasPart (hasPart_iff.2 ⟨n, hn, hi⟩)
        omega
      · have hge := Forest.length_le_of_added hplanted' hforest (getElem?_partsOf_node hn) hi
        omega
      · have hn := (hlaid n (List.mem_of_getElem? hn)).1
        have hm := (hlaid m (List.mem_of_getElem? hm)).1
        exact hm.trans hn.symm

theorem owned_declarations (options : Options) (ds : List Declaration) :
    (ds.foldl declare (empty options)).Owned := by
  suffices hall : (ds.foldl declare (empty options)).Planted ∧
      (ds.foldl declare (empty options)).Owned from hall.2
  apply List.foldlRecOn (motive := fun g => g.Planted ∧ g.Owned) ds declare
  · exact ⟨.nil, by simp [empty], by simp [empty]⟩
  · intro g h d _
    have hdeclares := g.declares_declare d
    exact ⟨h.1.declares hdeclares, h.2.declares h.1 hdeclares⟩

theorem Owned.subtree (h : g.Owned) (hplanted : g.Planted) (hn : g.nodes[id]? = some n) :
    ∀ i ∈ g.subtree id, ∃ m, g.nodes[i]? = some m ∧ m.production = n.production := by
  induction id using Nat.strongRecOn generalizing n with
  | ind id ih =>
    intro i hi
    have hid := (Array.getElem?_eq_some_iff.1 hn).1
    rw [hplanted.subtree_eq hid] at hi
    rcases List.mem_cons.1 hi with heq | hi
    · exact ⟨n, heq ▸ hn, rfl⟩
    · obtain ⟨j, hj, hi⟩ := List.mem_flatMap.1 hi
      have hlt := hplanted.lt_of_hasPart hj
      have hnode := Array.getElem?_eq_getElem (Nat.lt_trans hlt hid)
      obtain ⟨m, hm, howner⟩ := ih j hlt hnode i hi
      rw [kindOf_of_getElem? hn] at hj
      exact ⟨m, hm, howner.trans (h.part id n hn j hj _ hnode)⟩

theorem nodup_names_declares (h : g.productionNames.names.Nodup) (hdeclares : g.Declares g') :
    g'.productionNames.names.Nodup := by
  cases hdeclares with
  | kept _ _ _ hnames _ => rwa [hnames]
  | token _ _ _ => exact h
  | production hname _ => exact Symbols.nodup_push h hname

theorem nodup_names_declarations (options : Options) (ds : List Declaration) :
    (ds.foldl declare (empty options)).productionNames.names.Nodup := by
  refine List.foldlRecOn ds declare ?_ fun g h d _ => nodup_names_declares h (g.declares_declare d)
  exact .nil

/-- The nodes are trees in post-order, one for each production, and the productions are found by
their names. -/
structure PostOrdered (g : Grammar) : Prop where
  part_lt : ∀ (id : Nat) (n : Node), g.nodes[id]? = some n → ∀ i ∈ n.kind.children, i < id
  parent_iff : ∀ (id : Nat) (n : Node), g.nodes[id]? = some n → ∀ p, n.parent = some p ↔
    ∃ m, g.nodes[p]? = some m ∧ id ∈ m.kind.children
  part_once : ∀ (p : Nat) (m : Node), g.nodes[p]? = some m → ∀ id ∈ m.kind.children,
    m.kind.children.count id = 1 ∧
      ∀ (q : Nat) (l : Node), g.nodes[q]? = some l → id ∈ l.kind.children → q = p
  root_iff : ∀ (id : Nat) (n : Node), g.nodes[id]? = some n →
    (n.parent = none ↔ ∃ p ∈ g.productions, p.root = id)
  owner : ∀ p ∈ g.productions, ∀ id ∈ g.subtree p.root,
    ∃ n, g.nodes[id]? = some n ∧ n.production = p.id
  /-- The walk down from a root ends, and lists the subtree. -/
  walk : ∀ p ∈ g.productions, ∀ listed, g.Walks [p.root] listed ↔ listed = g.subtree p.root
  preorder : ∀ id < g.nodes.size, g.subtree id = id :: (g.kindOf id).children.flatMap g.subtree
  /-- A tree is a block of numbers up to its root, each listed once. -/
  block : ∀ p ∈ g.productions, ∃ first ≤ p.root,
    (g.subtree p.root).Perm (List.range' first (p.root + 1 - first))
  /-- The blocks are all there is, and no two of them meet. -/
  partition : (g.productions.toList.flatMap fun p => g.subtree p.root).Perm g.nodeIds
  names : g.productionNames.names = g.productions.toList.map Production.name
  place : ∀ (i : Nat) (p : Production), g.productions[i]? = some p →
    g.productionNames.index? p.name = some i ∧ p.id = i

theorem postOrdered (hplanted : g.Planted) (hlinked : g.Linked) (howned : g.Owned)
    (htable : g.NodeTable) (hnodup : g.productionNames.names.Nodup) : g.PostOrdered where
  part_lt id n hn i hi := hplanted.lt_of_hasPart (hasPart_iff.2 ⟨n, hn, hi⟩)
  parent_iff id n hn p := by
    have hlink := hlinked.parent_eq_some_iff (p := p) hplanted (Array.getElem?_eq_some_iff.1 hn).1
    rwa [hn, Option.bind_some, hasPart_iff] at hlink
  part_once p m hm id hid := by
    have hparts := getElem?_partsOf_node ((Array.getElem?_toList ..).trans hm)
    refine ⟨List.count_eq_one_of_mem (Forest.nodup_parts hplanted hparts) hid, ?_⟩
    intro q l hl hid'
    exact hplanted.parent_unique (hasPart_iff.2 ⟨l, hl, hid'⟩) (hasPart_iff.2 ⟨m, hm, hid⟩)
  root_iff id n hn := by
    have hlink := hlinked.parent_eq_none_iff hplanted (Array.getElem?_eq_some_iff.1 hn).1
    rwa [hn, Option.bind_some] at hlink
  owner p hp id hid := by
    have hroot := Array.getElem?_eq_getElem (hplanted.root_lt hp)
    obtain ⟨n, hn, hproduction⟩ := howned.subtree hplanted hroot id hid
    exact ⟨n, hn, hproduction.trans (howned.root p hp _ hroot)⟩
  walk p hp listed := hplanted.walks_iff (hplanted.root_lt hp)
  preorder id hid := hplanted.subtree_eq hid
  block p hp := hplanted.sideBySide.exists_range (mem_roots hp)
  partition := by
    have hall := hplanted.sideBySide.perm
    rw [List.flatMap_map, Nat.sub_zero] at hall
    rwa [nodeIds, List.range_eq_range']
  names := htable.names
  place i p hp := by
    refine ⟨Symbols.index?_of_getElem? hnodup ?_, g.productions_numbered i p hp⟩
    rw [htable.names, List.getElem?_map, Array.getElem?_toList, hp]
    rfl

/-- After any declarations, and after the declarations have been ended, the nodes are trees in
post-order. -/
theorem postOrdered_declarations (options : Options) (ds : List Declaration) :
    (ds.foldl declare (empty options)).PostOrdered ∧ (ofDeclarations options ds).PostOrdered := by
  have hplanted := planted_declarations options ds
  have hlinked := linked_declarations options ds
  have howned := owned_declarations options ds
  have hassembled := assembled_declarations options ds
  have hnodup := nodup_names_declarations options ds
  obtain ⟨hnodes, hproductions, hnames⟩ := finish_keeps (ds.foldl declare (empty options))
  constructor
  · exact postOrdered hplanted hlinked howned hassembled.nodeTable hnodup
  · rw [← hnames] at hnodup
    exact postOrdered hplanted.finish hlinked.finish (howned.congr hnodes hproductions)
      hassembled.finished.nodeTable hnodup

end Grammar
end PredictiveParsing
