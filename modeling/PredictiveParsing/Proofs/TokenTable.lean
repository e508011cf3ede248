import PredictiveParsing.Proofs.NameTables
import PredictiveParsing.Proofs.QuotedText
import PredictiveParsing.Proofs.Trees

/-!
# Tokens and the table of their names

Tokens are added by a declaration, by a literal of a declared production, and by a literal that
validation meets. A declared token has a name that was not there before. A literal's token is named
by the quoted text, and its name can only be that of a declared token, since there is no second
token for the same text and different texts are quoted differently. Where that does not happen, the
table has all names at the places of their tokens. Main statements: `Assembled.tokenTable` and
`TokenTable.consistent`.
-/
namespace PredictiveParsing.Grammar

open Relation

variable {g g' : Grammar} {t : TokenDef} {name image : String} {span : Span} {kind : Nat}

/-- Tokens of one name are a declared token and, later, a literal's own. -/
structure TokenTable (g : Grammar) : Prop where
  names : g.tokenNames = .ofNames (g.tokens.toList.map TokenDef.name)
  eof : g.tokens[0]? = some .eof
  literal : ∀ t ∈ g.tokens, t.anonymous = true → ∃ image span, t = .ofLiteral t.kind image span
  shared : g.tokens.toList.Pairwise fun s t =>
    s.name = t.name → s.anonymous = false ∧ t.anonymous = true

theorem TokenTable.empty (options : Options) : (empty options).TokenTable where
  names := rfl
  eof := rfl
  literal := by simp [Grammar.empty, TokenDef.eof]
  shared := List.pairwise_singleton _ _

theorem TokenTable.congr (h : g.TokenTable) (htokens : g'.tokens = g.tokens)
    (hnames : g'.tokenNames = g.tokenNames) : g'.TokenTable := by
  refine ⟨?_, ?_, ?_, ?_⟩ <;> simp only [htokens, hnames]
  · exact h.names
  · exact h.eof
  · exact h.literal
  · exact h.shared

theorem TokenTable.pushToken (h : g.TokenTable) (hkind : t.kind = g.tokens.size)
    (hliteral : t.anonymous = true → ∃ image span, t = .ofLiteral t.kind image span)
    (hshared : ∀ s ∈ g.tokens, s.name = t.name → s.anonymous = false ∧ t.anonymous = true) :
    (g.pushToken t hkind).TokenTable where
  names := by
    simp [Grammar.pushToken, Symbols.ofNames_concat, ← h.names]
  eof := by
    have hlt : 0 < g.tokens.size := (Array.getElem?_eq_some_iff.1 h.eof).1
    rw [Grammar.pushToken, Array.getElem?_push_lt hlt, ← Array.getElem?_eq_getElem hlt, h.eof]
  literal := by
    intro s hs
    rcases Array.mem_push.1 hs with hs | rfl
    · exact h.literal s hs
    · exact hliteral
  shared := by
    rw [Grammar.pushToken, Array.toList_push, List.pairwise_append]
    refine ⟨h.shared, List.pairwise_singleton _ _, fun s hs t' ht' => ?_⟩
    rw [List.mem_singleton.1 ht']
    exact hshared s (Array.mem_toList_iff.1 hs)

theorem getElem?_kind (ht : t ∈ g.tokens) : g.tokens[t.kind]? = some t := by
  obtain ⟨i, hi, rfl⟩ := Array.mem_iff_getElem.1 ht
  have hget := Array.getElem?_eq_getElem hi
  rw [g.tokens_numbered i _ hget, hget]

theorem isActiveIn_ofLiteral (hkind : kind ≠ eofKind) (image : String) (span : Span)
    (state : String) : (TokenDef.ofLiteral kind image span).isActiveIn state state = true := by
  simp [TokenDef.isActiveIn, TokenDef.ofLiteral, hkind]

theorem isPrivate_of_isActiveIn {state initial : String}
    (h : t.isActiveIn state initial = true) : t.isPrivate = false := by
  by_contra hprivate
  simp [TokenDef.isActiveIn, hprivate] at h

theorem TokenTable.exists_definition (h : g.TokenTable) (ht : t ∈ g.tokens)
    (hanonymous : t.anonymous = true) (hname : t.name = Quoted.string image) :
    ∃ owner, g.literalDefinition? image = some owner := by
  obtain ⟨text, span, heq⟩ := h.literal t ht hanonymous
  have hkind : t.kind ≠ eofKind := by
    intro hkind
    have hget := getElem?_kind ht
    rw [hkind] at hget
    rw [Option.some.inj (hget.symm.trans h.eof)] at hanonymous
    cases hanonymous
  obtain rfl : text = image := Quoted.string_injective (by rw [← hname, heq]; rfl)
  rw [← Option.isSome_iff_exists, literalDefinition?, List.find?_isSome]
  refine ⟨t, Array.mem_toList_iff.2 ht, ?_⟩
  rw [heq, isActiveIn_ofLiteral hkind]
  simp [TokenDef.isLiteral, TokenDef.ofLiteral]

theorem tokens_pushLiteral (g : Grammar) (image : String) (span : Span) :
    (g.pushLiteral image span).tokens =
      g.tokens.push (.ofLiteral g.tokens.size image span) := rfl

theorem eq_literal_of_undefined {shape : Node.Kind}
    (h : g.resolution shape = .undefinedLiteral image) :
    shape = .literal image ∧ g.literalDefinition? image = none := by
  cases shape with
  | tokenName name =>
    rw [resolution, resolveName] at h
    split at h
    · cases h
    · dsimp only at h
      split at h <;> [cases h; split at h <;> cases h]
  | literal text =>
    rw [resolution, resolveLiteral] at h
    split at h
    · next hnone =>
      cases h
      exact ⟨rfl, hnone⟩
    · split at h <;> cases h
  | _ => cases h

theorem claimed_resolveNodes (g : Grammar) (ns : List Node) :
    g.Claimed (g.resolveNodes ns).1 := by
  induction ns generalizing g with
  | nil => exact .refl
  | cons n ns ih =>
    rw [resolveNodes]
    split
    · exact ih g
    · exact ih g
    · next image himage =>
      exact .head ⟨image, n.span, (eq_literal_of_undefined himage).2, rfl⟩ (ih _)
    · exact ih g

theorem TokenTable.claims (h : g.TokenTable) (hclaims : g.Claims g') : g'.TokenTable := by
  obtain ⟨image, span, hnone, rfl⟩ := hclaims
  refine h.pushToken rfl (fun _ => ⟨image, span, rfl⟩) fun s hs hname => ⟨?_, rfl⟩
  by_contra hanonymous
  obtain ⟨owner, howner⟩ := h.exists_definition hs (Bool.not_eq_false _ ▸ hanonymous) hname
  rw [hnone] at howner
  cases howner

theorem TokenTable.claimed (h : g.TokenTable) (hclaimed : g.Claimed g') : g'.TokenTable := by
  induction hclaimed with
  | refl => exact h
  | tail _ hclaims ih => exact ih.claims hclaims

theorem TokenTable.not_mem_names (h : g.TokenTable) (hnone : g.tokenNames.index? name = none) :
    ∀ s ∈ g.tokens, s.name ≠ name := by
  rintro s hs rfl
  rw [Symbols.index?_eq_none, h.names, Symbols.mem_ofNames] at hnone
  exact hnone (List.mem_map_of_mem (Array.mem_toList_iff.2 hs))

theorem TokenTable.declares (h : g.TokenTable) (hdeclares : g.Declares g') : g'.TokenTable := by
  cases hdeclares with
  | kept htokens hnames _ _ _ => exact h.congr htokens hnames
  | token hkind hname hdeclared =>
    apply h.pushToken
    · intro hanonymous
      rw [hdeclared] at hanonymous
      cases hanonymous
    · intro s hs heq
      exact absurd heq (h.not_mem_names hname s hs)
  | production _ hclaimed => exact (h.claimed hclaimed).congr rfl rfl

inductive Assembled : Grammar → Prop
  | empty (options : Options) : Assembled (empty options)
  | declared {g : Grammar} (h : Assembled g) (d : Declaration) : Assembled (g.declare d)
  | finished {g : Grammar} (h : Assembled g) : Assembled g.finish
  | configured {g : Grammar} (h : Assembled g) (options : Options) :
      Assembled { g with options := options }
  | validated {g : Grammar} (h : Assembled g) : Assembled g.validate.1

theorem assembled_declarations (options : Options) (ds : List Declaration) :
    (ds.foldl declare (Grammar.empty options)).Assembled :=
  List.foldlRecOn ds declare (.empty options) fun _ h d _ => h.declared d

theorem Built.assembled (h : g.Built) : g.Assembled := by
  induction h with
  | declared options ds => exact (assembled_declarations options ds).finished
  | configured _ options ih => exact ih.configured options
  | validated _ ih => exact ih.validated

theorem Assembled.tokenTable (h : g.Assembled) : g.TokenTable := by
  induction h with
  | empty options => exact .empty options
  | @declared g _ d ih => exact ih.declares (g.declares_declare d)
  | @finished g _ ih =>
    rw [finish]
    split
    · exact ih.congr rfl rfl
    · exact ih
  | configured _ options ih => exact ih.congr rfl rfl
  | @validated g _ ih => exact (ih.claimed (g.claimed_resolveNodes g.nodes.toList)).congr rfl rfl

theorem TokenTable.lt_of_tokenKind? (h : g.TokenTable) (hkind : g.tokenKind? name = some kind) :
    kind < g.tokens.size := by
  have hsize := Symbols.size_ofNames_le (g.tokens.toList.map TokenDef.name)
  rw [← h.names, List.length_map, Array.length_toList] at hsize
  exact Nat.lt_of_lt_of_le (Symbols.lt_of_index? hkind) hsize

/-- The names of the tokens stand in the table of names, each at the place of its token. -/
structure Consistent (g : Grammar) : Prop where
  size : g.tokenNames.size = g.tokens.size
  index : ∀ (k : Nat) t, g.tokens[k]? = some t → g.tokenKind? t.name = some k

theorem TokenTable.consistent (h : g.TokenTable)
    (hapart : ∀ s ∈ g.tokens, ∀ t ∈ g.tokens,
      s.anonymous = false → t.anonymous = true → s.name ≠ t.name) : g.Consistent := by
  have hnodup : (g.tokens.toList.map TokenDef.name).Nodup := by
    rw [List.Nodup, List.pairwise_map]
    refine h.shared.imp_of_mem fun hs ht hshared hname => ?_
    obtain ⟨hdeclared, hanonymous⟩ := hshared hname
    exact hapart _ (Array.mem_toList_iff.1 hs) _ (Array.mem_toList_iff.1 ht) hdeclared hanonymous
      hname
  have hnames : g.tokenNames.names = g.tokens.toList.map TokenDef.name := by
    rw [h.names, Symbols.names_ofNames hnodup]
  refine ⟨?_, fun k t ht => ?_⟩
  · rw [Symbols.size, hnames, List.length_map, Array.length_toList]
  · refine Symbols.index?_of_getElem? (hnames ▸ hnodup) ?_
    rw [hnames, List.getElem?_map, Array.getElem?_toList, ht, Option.map_some]

theorem Consistent.apart (h : g.Consistent) : ∀ s ∈ g.tokens, ∀ t ∈ g.tokens,
    s.anonymous = false → t.anonymous = true → s.name ≠ t.name := by
  intro s hs t ht hdeclared hanonymous hname
  have hplace := h.index _ s (getElem?_kind hs)
  rw [hname, h.index _ t (getElem?_kind ht)] at hplace
  have hsame := getElem?_kind hs
  rw [← Option.some.inj hplace, getElem?_kind ht] at hsame
  rw [Option.some.inj hsame, hdeclared] at hanonymous
  cases hanonymous

theorem Consistent.name_eq (h : g.Consistent) (htable : g.TokenTable)
    (hkind : g.tokenKind? name = some kind) : ∃ t, g.tokens[kind]? = some t ∧ t.name = name := by
  have hlt := htable.lt_of_tokenKind? hkind
  refine ⟨g.tokens[kind], Array.getElem?_eq_getElem hlt, ?_⟩
  have hindex := h.index kind _ (Array.getElem?_eq_getElem hlt)
  have hname := Symbols.getElem?_of_index? hindex
  rw [Symbols.getElem?_of_index? hkind] at hname
  exact (Option.some.inj hname).symm

end PredictiveParsing.Grammar
