import PredictiveParsing.Grammar.Basic

/-!
# What nodes derive and what follows them

A node derives token sequences along its tree; a reference derives what the production it names
does. Actions and stated lookahead derive nothing but the empty sequence, and a name that is not
resolved derives nothing at all. What follows a node comes from the node that it is a part of, and
what follows the root of a production from every place that refers to it.
-/
namespace PredictiveParsing.Grammar

variable (g : Grammar)

def HasKind (id : Nat) (kind : Node.Kind) : Prop := g.nodes[id]?.map Node.kind = some kind

/-- `g.Derives id w`: the node `id` derives the token sequence `w`. A sequence is derived from
parts, each an item with what it derives. -/
inductive Derives : Nat → List Nat → Prop
  | sequence {id : Nat} {parts : List (Nat × List Nat)}
      (h : g.HasKind id (.sequence (parts.map (·.1)))) (hparts : ∀ p ∈ parts, Derives p.1 p.2) :
      Derives id (parts.flatMap (·.2))
  | choice {id i : Nat} {items w : List Nat} (h : g.HasKind id (.choice items)) (hi : i ∈ items)
      (hw : Derives i w) : Derives id w
  | zeroOrMore {id body : Nat} {ws : List (List Nat)} (h : g.HasKind id (.zeroOrMore body))
      (hws : ∀ w ∈ ws, Derives body w) : Derives id ws.flatten
  | oneOrMore {id body : Nat} {w : List Nat} {ws : List (List Nat)}
      (h : g.HasKind id (.oneOrMore body))
      (hw : Derives body w) (hws : ∀ w ∈ ws, Derives body w) : Derives id (w ++ ws.flatten)
  | skipped {id body : Nat} (h : g.HasKind id (.zeroOrOne body)) : Derives id []
  | taken {id body : Nat} {w : List Nat} (h : g.HasKind id (.zeroOrOne body))
      (hw : Derives body w) :
      Derives id w
  | nonterminal {id : Nat} {name : String} {p : Production} {w : List Nat}
      (h : g.HasKind id (.nonterminal name)) (hp : g.production? name = some p)
      (hw : Derives p.root w) :
      Derives id w
  | token {id kind : Nat} (h : g.HasKind id (.token kind)) : Derives id [kind]
  | action {id : Nat} {code : String} (h : g.HasKind id (.action code)) : Derives id []
  | lookahead {id : Nat} {la : StatedLookahead} (h : g.HasKind id (.lookahead la)) : Derives id []

def DerivesAll (items w : List Nat) : Prop :=
  ∃ parts : List (Nat × List Nat),
    parts.map (·.1) = items ∧ (∀ p ∈ parts, g.Derives p.1 p.2) ∧ parts.flatMap (·.2) = w

def Productive : Prop := ∀ id < g.nodes.size, ∃ w, g.Derives id w

/-- `g.Follows id f`: the token sequence `f` can come after the node `id`, to the end of the input,
or to the end of what a lookahead scans. -/
inductive Follows : Nat → List Nat → Prop
  | start {p : Production} (hp : p ∈ g.productions) (h : g.start? = some p.id) :
      Follows p.root [eofKind]
  | unreferenced {p : Production} (hp : p ∈ g.productions)
      (h : ∀ id name, g.HasKind id (.nonterminal name) → g.production? name ≠ some p) :
      Follows p.root [eofKind]
  | scanned {id nested : Nat} {la : StatedLookahead} (h : g.HasKind id (.lookahead la))
      (hn : la.nested = some nested) : Follows nested []
  | item {id i : Nat} {before after f w : List Nat}
      (h : g.HasKind id (.sequence (before ++ i :: after)))
      (hw : g.DerivesAll after w) (hf : Follows id f) : Follows i (w ++ f)
  | alternative {id i : Nat} {items f : List Nat} (h : g.HasKind id (.choice items))
      (hi : i ∈ items)
      (hf : Follows id f) : Follows i f
  | zeroOrMore {id body : Nat} {f : List Nat} {ws : List (List Nat)}
      (h : g.HasKind id (.zeroOrMore body))
      (hws : ∀ w ∈ ws, g.Derives body w) (hf : Follows id f) : Follows body (ws.flatten ++ f)
  | oneOrMore {id body : Nat} {f : List Nat} {ws : List (List Nat)}
      (h : g.HasKind id (.oneOrMore body))
      (hws : ∀ w ∈ ws, g.Derives body w) (hf : Follows id f) : Follows body (ws.flatten ++ f)
  | zeroOrOne {id body : Nat} {f : List Nat} (h : g.HasKind id (.zeroOrOne body))
      (hf : Follows id f) :
      Follows body f
  | reference {id : Nat} {name : String} {p : Production} {f : List Nat}
      (h : g.HasKind id (.nonterminal name)) (hp : g.production? name = some p)
      (hf : Follows id f) :
      Follows p.root f

def Unreferenced (p : Production) : Prop :=
  ∀ id name, g.HasKind id (.nonterminal name) → g.production? name ≠ some p

variable {g} {id : Nat} {kind : Node.Kind}

theorem HasKind.lt (h : g.HasKind id kind) : id < g.nodes.size := by
  obtain ⟨n, hn, -⟩ := Option.map_eq_some_iff.1 h
  exact (Array.getElem?_eq_some_iff.1 hn).1

theorem HasKind.kindOf (h : g.HasKind id kind) : g.kindOf id = kind := by
  rw [Grammar.kindOf, h]
  rfl

theorem hasKind_kindOf (h : id < g.nodes.size) : g.HasKind id (g.kindOf id) := by
  rw [HasKind, Grammar.kindOf, Array.getElem?_eq_getElem h]
  rfl

theorem hasKind_of_kindOf {kind : Node.Kind} (h : g.kindOf id = kind) (hne : kind ≠ .sequence []) :
    g.HasKind id kind := by
  by_cases hid : id < g.nodes.size
  · exact h ▸ hasKind_kindOf hid
  · rw [kindOf, Array.getElem?_eq_none (Nat.le_of_not_lt hid)] at h
    exact absurd h.symm hne

theorem HasKind.mem_nodeIds (h : g.HasKind id kind) : id ∈ g.nodeIds := List.mem_range.2 h.lt

theorem Derives.lt {w : List Nat} (h : g.Derives id w) : id < g.nodes.size := by
  cases h <;> exact HasKind.lt ‹_›

theorem DerivesAll.nil : g.DerivesAll [] [] := ⟨[], rfl, by simp, rfl⟩

theorem DerivesAll.cons {i : Nat} {items v w : List Nat} (hv : g.Derives i v)
    (hw : g.DerivesAll items w) : g.DerivesAll (i :: items) (v ++ w) := by
  obtain ⟨parts, rfl, hparts, rfl⟩ := hw
  exact ⟨(i, v) :: parts, rfl, List.forall_mem_cons.2 ⟨hv, hparts⟩, List.flatMap_cons⟩

theorem DerivesAll.derives {items w : List Nat} (hw : g.DerivesAll items w)
    (h : g.HasKind id (.sequence items)) : g.Derives id w := by
  obtain ⟨parts, rfl, hparts, rfl⟩ := hw
  exact .sequence h hparts

theorem exists_derivesAll {items : List Nat} (h : ∀ i ∈ items, ∃ w, g.Derives i w) :
    ∃ w, g.DerivesAll items w := by
  induction items with
  | nil => exact ⟨[], .nil⟩
  | cons i items ih =>
    obtain ⟨⟨v, hv⟩, hitems⟩ := List.forall_mem_cons.1 h
    obtain ⟨w, hw⟩ := ih hitems
    exact ⟨v ++ w, hw.cons hv⟩

theorem id_lt_of_mem {p : Production} (h : p ∈ g.productions) : p.id < g.productions.size := by
  obtain ⟨i, hlt, hi⟩ := Array.mem_iff_getElem.1 h
  have hid := g.productions_numbered i p (hi ▸ Array.getElem?_eq_getElem hlt)
  omega

theorem getElem?_id {p : Production} (h : p ∈ g.productions) : g.productions[p.id]? = some p := by
  obtain ⟨i, hi, rfl⟩ := Array.mem_iff_getElem.1 h
  have hget := Array.getElem?_eq_getElem hi
  rwa [g.productions_numbered i _ hget]

theorem mem_of_production? {name : String} {p : Production} (h : g.production? name = some p) :
    p ∈ g.productions := by
  obtain ⟨i, -, hi⟩ := Option.bind_eq_some_iff.1 h
  exact Array.mem_of_getElem? hi

theorem eq_of_id_eq {p q : Production} (hp : p ∈ g.productions) (hq : q ∈ g.productions)
    (h : p.id = q.id) : p = q := by
  obtain ⟨i, hi, rfl⟩ := Array.mem_iff_getElem.1 hp
  obtain ⟨j, hj, rfl⟩ := Array.mem_iff_getElem.1 hq
  rw [g.productions_numbered i _ (Array.getElem?_eq_getElem hi),
    g.productions_numbered j _ (Array.getElem?_eq_getElem hj)] at h
  subst h
  rfl

def itemList : Grammar :=
  let item : TokenDef := { TokenDef.eof with name := "item", kind := 1, pattern := .literal "x" }
  let node (kind : Node.Kind) (parent : Option Nat) : Node := ⟨kind, .none, parent, 0⟩
  { empty {} with
    tokens := #[.eof, item]
    tokenNames := ⟨["EOF", "item"]⟩
    productions := #[⟨"List", 0, 4, none, .none⟩]
    productionNames := ⟨["List"]⟩
    nodes := #[node (.token 1) (some 2), node (.nonterminal "List") (some 2),
      node (.sequence [0, 1]) (some 4), node (.sequence []) (some 4), node (.choice [2, 3]) none]
    tokens_numbered := ((Numbered.empty TokenDef.kind).push rfl).push rfl
    productions_numbered := (Numbered.empty Production.id).push rfl }

theorem itemList_derives_empty : itemList.Derives 4 [] := by
  have hkind : itemList.HasKind 4 (.choice [2, 3]) := rfl
  have hempty : itemList.Derives 3 [] := @Derives.sequence itemList 3 [] rfl (by simp)
  exact .choice hkind (by decide) hempty

theorem itemList_derives_cons {w : List Nat} (h : itemList.Derives 4 w) :
    itemList.Derives 2 (1 :: w) := by
  have hitem : itemList.Derives 0 [1] := .token rfl
  have hkind : itemList.HasKind 1 (.nonterminal "List") := rfl
  have hrest : itemList.Derives 1 w := .nonterminal hkind rfl h
  have hcons : itemList.Derives 2 ([1] ++ (w ++ [])) :=
    @Derives.sequence itemList 2 [(0, [1]), (1, w)] rfl (by simp [hitem, hrest])
  simpa using hcons

theorem itemList_productive : itemList.Productive := by
  intro id hid
  match id, hid with
  | 0, _ => exact ⟨[1], .token rfl⟩
  | 1, _ =>
    have hkind : itemList.HasKind 1 (.nonterminal "List") := rfl
    exact ⟨[], .nonterminal hkind rfl itemList_derives_empty⟩
  | 2, _ => exact ⟨[1], itemList_derives_cons itemList_derives_empty⟩
  | 3, _ => exact ⟨[], @Derives.sequence itemList 3 [] rfl (by simp)⟩
  | 4, _ => exact ⟨[], itemList_derives_empty⟩

end PredictiveParsing.Grammar
