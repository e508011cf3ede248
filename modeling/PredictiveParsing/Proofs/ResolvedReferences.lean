import PredictiveParsing.Proofs.Recompilation
import PredictiveParsing.Proofs.SortedReports

/-!
# What validation leaves can be used

Tokens are added and never changed, so a node that stands for a token goes on standing for a token
that is handed over. A name or a text that cannot be resolved is an error, and so are a nonterminal
without a production and a lexical state that is not declared. Where validation finds no error, all
references therefore lead somewhere, and nothing but names and texts has changed in the trees. Main
statement: `validate_resolves`.
-/
namespace PredictiveParsing

def Node.Kind.isUnresolved : Node.Kind → Bool
  | tokenName _ | literal _ => true
  | _ => false

namespace Expr

mutual

theorem laid_nodesFrom (production : Nat) (e : Expr) (span : Span) (base : Nat)
    (parent : Option Nat) :
    ∀ n ∈ nodesFrom production e span base parent,
      n.production = production ∧ ∀ kind, n.kind ≠ .token kind := by
  match e with
  | .seq items | .choice items =>
    rw [nodesFrom]
    exact List.forall_mem_append.2
      ⟨laid_nodesOfAll production items span base _, by simp⟩
  | .star body | .plus body | .opt body | .lookahead _ _ (some body) _ =>
    rw [nodesFrom]
    exact List.forall_mem_append.2 ⟨laid_nodesFrom production body span base _, by simp⟩
  | .located inner body => exact laid_nodesFrom production body inner base parent
  | .nonterminal _ | .token _ | .literal _ | .action _ | .lookahead _ _ none _ =>
    simp [nodesFrom]

theorem laid_nodesOfAll (production : Nat) (es : List Expr) (span : Span) (base parent : Nat) :
    ∀ n ∈ nodesOfAll production es span base parent,
      n.production = production ∧ ∀ kind, n.kind ≠ .token kind := by
  match es with
  | [] => simp [nodesOfAll]
  | e :: es =>
    rw [nodesOfAll]
    exact List.forall_mem_append.2
      ⟨laid_nodesFrom production e span base _, laid_nodesOfAll production es span _ parent⟩

end

end Expr

namespace Grammar

variable {g g' : Grammar} {kind : Nat} {shape : Node.Kind} {ns : List Node}

/-- Matches of the kind are handed over to the parser, by a definition that anyone may refer to. -/
def HandsOver (g : Grammar) (kind : Nat) : Prop :=
  ∃ t, g.tokens[kind]? = some t ∧ t.isPrivate = false ∧ t.disposition = .token

theorem HandsOver.pushToken (h : g.HandsOver kind) {t : TokenDef} (ht : t.kind = g.tokens.size) :
    (g.pushToken t ht).HandsOver kind := by
  obtain ⟨s, hs, hdefinition⟩ := h
  have hlt := (Array.getElem?_eq_some_iff.1 hs).1
  refine ⟨s, ?_, hdefinition⟩
  rw [Grammar.pushToken, Array.getElem?_push_lt hlt, ← Array.getElem?_eq_getElem hlt, hs]

theorem HandsOver.claimed (h : g.HandsOver kind) (hclaimed : g.Claimed g') :
    g'.HandsOver kind := by
  induction hclaimed with
  | refl => exact h
  | tail _ hclaims ih =>
    obtain ⟨image, span, -, rfl⟩ := hclaims
    exact ih.pushToken rfl

inductive ResolvesTo (g : Grammar) : Node.Kind → Resolution → Prop
  | other {shape : Node.Kind} (h : shape.isUnresolved = false) : ResolvesTo g shape .other
  | name {name : String} {kind : Nat} (h : g.tokenKind? name = some kind)
      (hpublic : (g.tokens[kind]?.getD default).isPrivate = false)
      (htoken : (g.tokens[kind]?.getD default).disposition = .token) :
      ResolvesTo g (.tokenName name) (.token kind)
  | literal {image : String} {t : TokenDef} (h : g.literalDefinition? image = some t)
      (htoken : t.disposition = .token) : ResolvesTo g (.literal image) (.token t.kind)
  | undefinedLiteral {image : String} (h : g.literalDefinition? image = none) :
      ResolvesTo g (.literal image) (.undefinedLiteral image)
  | fault {shape : Node.Kind} {fault : Diagnostic.Kind} {message : String}
      (h : fault.severity = .error) : ResolvesTo g shape (.fault fault message)

theorem resolvesTo_resolution (g : Grammar) (shape : Node.Kind) :
    g.ResolvesTo shape (g.resolution shape) := by
  cases shape with
  | tokenName name =>
    rw [resolution, resolveName]
    split
    · exact .fault rfl
    · next kind hkind =>
      dsimp only
      split
      · exact .fault rfl
      · next hpublic =>
        split
        · next htoken => exact .name hkind (Bool.eq_false_iff.2 hpublic) htoken
        · exact .fault rfl
  | literal image =>
    rw [resolution, resolveLiteral]
    split
    · next hnone => exact .undefinedLiteral hnone
    · next t ht =>
      split
      · next htoken => exact .literal ht htoken
      · exact .fault rfl
  | _ => exact .other rfl

theorem literal_of_definition {image : String} {t : TokenDef}
    (h : g.literalDefinition? image = some t) :
    t ∈ g.tokens ∧ t.pattern = .literal image ∧
      t.isActiveIn g.initialState g.initialState = true := by
  have hfound := List.find?_some h
  rw [Bool.and_eq_true] at hfound
  refine ⟨Array.mem_toList_iff.1 (List.mem_of_find?_eq_some h), ?_, hfound.2⟩
  have hliteral := hfound.1
  rw [TokenDef.isLiteral] at hliteral
  split at hliteral
  · next text htext => rw [htext, beq_iff_eq.1 hliteral]
  · cases hliteral

theorem TokenTable.handsOver (h : g.TokenTable) (hshape : g.resolution shape = .token kind) :
    g.HandsOver kind := by
  have hresolves := g.resolvesTo_resolution shape
  rw [hshape] at hresolves
  cases hresolves with
  | name hkind hpublic htoken =>
    have hget := Array.getElem?_eq_getElem (h.lt_of_tokenKind? hkind)
    rw [hget, Option.getD_some] at hpublic htoken
    exact ⟨_, hget, hpublic, htoken⟩
  | @literal image t ht htoken =>
    obtain ⟨hmem, -, hactive⟩ := literal_of_definition ht
    exact ⟨t, getElem?_kind hmem, isPrivate_of_isActiveIn hactive, htoken⟩

theorem isUnresolved_of_token (h : g.resolution shape = .token kind) :
    shape.isUnresolved = true := by
  have hresolves := g.resolvesTo_resolution shape
  rw [h] at hresolves
  cases hresolves with
  | name => rfl
  | literal => rfl

theorem isUnresolved_of_other (h : g.resolution shape = .other) : shape.isUnresolved = false := by
  have hresolves := g.resolvesTo_resolution shape
  rw [h] at hresolves
  cases hresolves with
  | other hresolved => exact hresolved

theorem severity_of_fault {fault : Diagnostic.Kind} {message : String}
    (h : g.resolution shape = .fault fault message) : fault.severity = .error := by
  have hresolves := g.resolvesTo_resolution shape
  rw [h] at hresolves
  cases hresolves with
  | fault hseverity => exact hseverity

theorem resolved_resolveNodes (h : ∀ d ∈ (g.resolveNodes ns).2.2, d.severity ≠ .error) :
    ∀ n ∈ (g.resolveNodes ns).2.1, n.kind.isUnresolved = false := by
  induction ns generalizing g with
  | nil => simp [resolveNodes]
  | cons n ns ih =>
    rw [resolveNodes] at h ⊢
    split at h
    · next hother => exact List.forall_mem_cons.2 ⟨isUnresolved_of_other hother, ih h⟩
    · exact List.forall_mem_cons.2 ⟨rfl, ih h⟩
    · exact List.forall_mem_cons.2 ⟨rfl, ih h⟩
    · next fault message hfault =>
      exact absurd (severity_of_fault hfault) (h _ List.mem_cons_self)

structure NodeTable (g : Grammar) : Prop where
  token : ∀ n ∈ g.nodes, ∀ kind, n.kind = .token kind → g.HandsOver kind
  names : g.productionNames.names = g.productions.toList.map Production.name

theorem NodeTable.congr (h : g.NodeTable) (htokens : ∀ kind, g.HandsOver kind → g'.HandsOver kind)
    (hnodes : g'.nodes = g.nodes) (hproductions : g'.productions = g.productions)
    (hnames : g'.productionNames = g.productionNames) : g'.NodeTable where
  token n hn kind hkind := htokens kind (h.token n (hnodes ▸ hn) kind hkind)
  names := by rw [hnames, hproductions, h.names]

theorem NodeTable.claimed (h : g.NodeTable) (hclaimed : g.Claimed g') : g'.NodeTable := by
  obtain ⟨hnodes, hproductions⟩ := hclaimed.keeps
  exact h.congr (fun _ hkind => hkind.claimed hclaimed) hnodes hproductions hclaimed.names_eq.2

theorem NodeTable.declares (h : g.NodeTable) (hdeclares : g.Declares g') : g'.NodeTable := by
  cases hdeclares with
  | kept htokens _ hproductions hnames hnodes =>
    apply h.congr _ hnodes hproductions hnames
    simp only [HandsOver, htokens, imp_self, implies_true]
  | token hkind _ _ => exact h.congr (fun _ hkind' => hkind'.pushToken hkind) rfl rfl rfl
  | @production g' name resultType span body _ hclaimed =>
    have hg' := h.claimed hclaimed
    constructor
    · intro n hn kind hkind
      rcases Array.mem_append.1 hn with hn | hn
      · exact hg'.token n hn kind hkind
      · have hlaid := Expr.laid_nodesFrom _ _ _ _ _ n (List.mem_toArray.1 hn)
        exact absurd hkind (hlaid.2 kind)
    · have hnames := hclaimed.names_eq.2 ▸ hg'.names
      simp [Symbols.push, hnames]

theorem size_validate (h : g.TokenTable) : g.validate.1.nodes.size = g.nodes.size := by
  have hlength := (settled_resolveNodes h g.nodes.toList .refl).length_eq
  rw [Array.length_toList] at hlength
  exact hlength.symm

theorem exists_settled (h : g.TokenTable) {id : Nat} {n' : Node}
    (hn' : g.validate.1.nodes[id]? = some n') :
    ∃ n, g.nodes[id]? = some n ∧ g.validate.1.Settled n n' := by
  have hlt := (Array.getElem?_eq_some_iff.1 hn').1
  rw [size_validate h] at hlt
  have hn := Array.getElem?_eq_getElem hlt
  exact ⟨_, hn, settled_validate h hn hn'⟩

theorem NodeTable.validated (h : g.NodeTable) (htable : g.TokenTable)
    (htable' : g.validate.1.TokenTable) : g.validate.1.NodeTable := by
  have hclaimed := g.claimed_resolveNodes g.nodes.toList
  constructor
  · intro n' hn' kind hkind
    obtain ⟨id, hid⟩ := Array.mem_iff_getElem?.1 hn'
    obtain ⟨n, hn, rfl | ⟨kind', hresolved, rfl⟩⟩ := exists_settled htable hid
    · have hkept := (h.token n' (Array.mem_of_getElem? hn) kind hkind).claimed hclaimed
      exact hkept
    · obtain rfl := Node.Kind.token.inj hkind
      exact htable'.handsOver hresolved
  · exact (h.claimed hclaimed).names

theorem Assembled.nodeTable (h : g.Assembled) : g.NodeTable := by
  induction h with
  | empty options => exact ⟨by simp [Grammar.empty], rfl⟩
  | @declared g _ d ih => exact ih.declares (g.declares_declare d)
  | @finished g _ ih =>
    rw [finish]
    split
    · exact ih.congr (fun _ => id) rfl rfl rfl
    · exact ih
  | configured _ options ih => exact ih.congr (fun _ => id) rfl rfl rfl
  | validated h ih => exact ih.validated h.tokenTable h.validated.tokenTable

/-- `v` is `g` with all names and texts resolved, and every reference in it leads somewhere. -/
structure Resolves (g v : Grammar) : Prop where
  size : v.nodes.size = g.nodes.size
  node : ∀ (id : Nat) (n n' : Node), g.nodes[id]? = some n → v.nodes[id]? = some n' →
    n.kind.isUnresolved = false ∧ n' = n ∨
      n.kind.isUnresolved = true ∧ ∃ kind, n' = { n with kind := .token kind }
  productions : v.productions = g.productions
  resolved : ∀ n ∈ v.nodes, n.kind.isUnresolved = false
  token : ∀ n ∈ v.nodes, ∀ kind, n.kind = .token kind → v.HandsOver kind
  literal : ∃ kindOf : String → Nat, ∀ id image, g.HasKind id (.literal image) →
    v.HasKind id (.token (kindOf image)) ∧
      ∃ t, v.tokens[kindOf image]? = some t ∧ t.pattern = .literal image ∧
        t.isActiveIn v.initialState v.initialState = true
  nonterminal : ∀ n ∈ v.nodes, ∀ name, n.kind = .nonterminal name →
    ∃ p, v.production? name = some p ∧ p.name = name
  state : ∀ t ∈ v.tokens, ∀ name ∈ stateReferences t, name ∈ v.states.names

theorem severity_of_mem_checkStates {d : Diagnostic} (hd : d ∈ g.checkStates) :
    d.severity = .error := by
  obtain ⟨t, -, hd⟩ := List.mem_flatMap.1 hd
  obtain ⟨name, -, rfl⟩ := List.mem_map.1 hd
  rfl

theorem severity_of_mem_checkNonterminals {d : Diagnostic} (hd : d ∈ g.checkNonterminals) :
    d.severity = .error := by
  obtain ⟨n, -, hreport⟩ := List.mem_filterMap.1 hd
  split at hreport
  · split at hreport
    · cases hreport
    · obtain rfl := Option.some.inj hreport
      rfl
  · cases hreport

section

variable (hvalid : Diagnostic.anyError g.validate.2 = false)

include hvalid

theorem severity_of_mem_validate : ∀ d ∈ g.validate.2, d.severity ≠ .error := by
  intro d hd herror
  have hany := Diagnostic.anyError_iff.2 ⟨d, hd, herror⟩
  rw [hvalid] at hany
  cases hany

theorem checkStates_eq_nil : g.checkStates = [] := by
  refine List.eq_nil_iff_forall_not_mem.2 fun d hd => ?_
  apply severity_of_mem_validate hvalid d _ (severity_of_mem_checkStates hd)
  simp only [validate, List.mem_append]
  exact .inl (.inl (.inl (.inr hd)))

theorem checkNonterminals_eq_nil : g.validate.1.checkNonterminals = [] := by
  refine List.eq_nil_iff_forall_not_mem.2 fun d hd => ?_
  apply severity_of_mem_validate hvalid d _ (severity_of_mem_checkNonterminals hd)
  exact List.mem_append_left _ (List.mem_append_right _ hd)

theorem resolved_validate : ∀ n ∈ g.validate.1.nodes, n.kind.isUnresolved = false := by
  intro n hn
  refine resolved_resolveNodes (fun d hd => ?_) n (List.mem_toArray.1 hn)
  apply severity_of_mem_validate hvalid
  simp only [validate, resolveTokens, List.mem_append]
  exact .inl (.inl (.inr hd))

theorem production_of_nonterminal (htable : g.validate.1.NodeTable) :
    ∀ n ∈ g.validate.1.nodes, ∀ name, n.kind = .nonterminal name →
      ∃ p, g.validate.1.production? name = some p ∧ p.name = name := by
  intro n hn name hname
  have hnone := List.filterMap_eq_nil_iff.1 (checkNonterminals_eq_nil hvalid) n
    (Array.mem_toList_iff.2 hn)
  simp only [hname] at hnone
  split at hnone
  · next hsome =>
    obtain ⟨p, hp⟩ := Option.isSome_iff_exists.1 hsome
    obtain ⟨i, hi, hget⟩ := Option.bind_eq_some_iff.1 hp
    have hplace := Symbols.getElem?_of_index? hi
    rw [htable.names, List.getElem?_map, Array.getElem?_toList, hget, Option.map_some] at hplace
    exact ⟨p, hp, Option.some.inj hplace⟩
  · cases hnone

theorem states_of_references :
    ∀ t ∈ g.validate.1.tokens, ∀ name ∈ stateReferences t, name ∈ g.validate.1.states.names := by
  intro t ht name hname
  -- the literals that got tokens on the way refer to no states
  have hnil : g.validate.1.checkStates = [] :=
    (g.claimed_resolveNodes g.nodes.toList).checks_eq.2.trans (checkStates_eq_nil hvalid)
  have hfilter := List.map_eq_nil_iff.1
    (List.flatMap_eq_nil_iff.1 hnil t (Array.mem_toList_iff.2 ht))
  have hindex := List.filter_eq_nil_iff.1 hfilter name hname
  rw [Option.isNone_iff_eq_none, Symbols.index?_eq_none] at hindex
  exact not_not.1 hindex

theorem resolved_literal (h : g.TokenTable) {id : Nat} {image : String}
    (hid : g.HasKind id (.literal image)) :
    ∃ t, g.validate.1.literalDefinition? image = some t ∧
      g.validate.1.HasKind id (.token t.kind) := by
  obtain ⟨n, hn, hkind⟩ := Option.map_eq_some_iff.1 hid
  have hlt := (Array.getElem?_eq_some_iff.1 hn).1
  rw [← size_validate h] at hlt
  have hn' := Array.getElem?_eq_getElem hlt
  have hresolved := resolved_validate hvalid _ (Array.mem_of_getElem? hn')
  rcases settled_validate h hn hn' with hsame | ⟨kind, hshape, hnode⟩
  · rw [hsame, hkind] at hresolved
    cases hresolved
  · have hresolves := g.validate.1.resolvesTo_resolution n.kind
    rw [hshape, hkind] at hresolves
    cases hresolves with
    | @literal _ t ht _ =>
      refine ⟨t, ht, ?_⟩
      rw [HasKind, hn', hnode]
      rfl

end

/-- After a validation without errors every reference leads somewhere, and nothing but names and
texts of tokens has changed in the trees. -/
theorem validate_resolves {g : Grammar} (h : g.Assembled)
    (hvalid : Diagnostic.anyError g.validate.2 = false) : g.Resolves g.validate.1 where
  size := size_validate h.tokenTable
  node id n n' hn hn' := by
    rcases settled_validate h.tokenTable hn hn' with rfl | ⟨kind, hkind, hnode⟩
    · exact .inl ⟨resolved_validate hvalid _ (Array.mem_of_getElem? hn'), rfl⟩
    · exact .inr ⟨isUnresolved_of_token hkind, kind, hnode⟩
  productions := (g.claimed_resolveNodes g.nodes.toList).keeps.2
  resolved := resolved_validate hvalid
  token := h.validated.nodeTable.token
  literal := by
    refine ⟨fun image => ((g.validate.1.literalDefinition? image).map TokenDef.kind).getD 0, ?_⟩
    intro id image hid
    obtain ⟨t, ht, hkind⟩ := resolved_literal hvalid h.tokenTable hid
    obtain ⟨hmem, hpattern, hactive⟩ := literal_of_definition ht
    simp only [ht, Option.map_some, Option.getD_some]
    exact ⟨hkind, t, getElem?_kind hmem, hpattern, hactive⟩
  nonterminal := production_of_nonterminal hvalid h.validated.nodeTable
  state := states_of_references hvalid

/-- The text is defined in a state that is no longer the first one when all is declared. -/
def lateState : Grammar :=
  ofDeclarations {}
    [.token { name := "X", pattern := .literal "x", scope := .only ["DEFAULT"] },
      .production "P" none .none (.seq [.literal "x", .nonterminal "Q"]),
      .production "Q" none .none (.literal "x"),
      .state "MAIN" .none, .state "DEFAULT" .none]

theorem validate_resolves_lateState :
    Diagnostic.anyError lateState.validate.2 = false ∧
      ∃ kind t, lateState.validate.1.HasKind 0 (.token kind) ∧
        lateState.validate.1.HasKind 3 (.token kind) ∧
        lateState.validate.1.tokens[kind]? = some t ∧ t.pattern = .literal "x" ∧
        t.isActiveIn "MAIN" "MAIN" = true := by
  have hassembled : lateState.Assembled := Built.assembled (.declared _ _)
  have hvalid : Diagnostic.anyError lateState.validate.2 = false := by decide +kernel
  have hinitial : lateState.validate.1.initialState = "MAIN" := by decide +kernel
  obtain ⟨kindOf, hliteral⟩ := (validate_resolves hassembled hvalid).literal
  obtain ⟨hfirst, t, ht, hpattern, hactive⟩ := hliteral 0 "x" rfl
  obtain ⟨hsecond, -⟩ := hliteral 3 "x" rfl
  rw [hinitial] at hactive
  exact ⟨hvalid, kindOf "x", t, hfirst, hsecond, ht, hpattern, hactive⟩

end Grammar
end PredictiveParsing
