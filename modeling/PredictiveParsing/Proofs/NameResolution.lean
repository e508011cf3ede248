import PredictiveParsing.Proofs.TokenTable

/-!
# Names of tokens and what they are resolved to

What a name or a text is resolved to does not change when more literals get tokens. So a name or a
literal that validation has resolved is what the grammar says of it in the end. Main statement:
`tokenTable_consistent`.
-/
namespace PredictiveParsing.Grammar

variable {g g' : Grammar} {name image : String} {kind : Nat}

def Knows (g : Grammar) : Node.Kind → Prop
  | .tokenName name => ∃ kind, g.tokenKind? name = some kind
  | .literal image => ∃ t, g.literalDefinition? image = some t
  | _ => True

theorem tokenKind?_of_resolveName (h : g.resolveName name = .token kind) :
    g.tokenKind? name = some kind := by
  rw [resolveName] at h
  split at h
  · cases h
  · next k hk =>
    dsimp only at h
    split at h
    · cases h
    · split at h
      · cases h
        exact hk
      · cases h

theorem knows_or_fails (g : Grammar) (shape : Node.Kind) :
    g.Knows shape ∨
      (∃ name, shape = .tokenName name ∧ g.tokenKind? name = none ∧
        g.resolution shape = .fault .undefinedToken s!"undefined token {name}") ∨
      ∃ image, shape = .literal image ∧ g.literalDefinition? image = none ∧
        g.resolution shape = .undefinedLiteral image := by
  cases shape with
  | tokenName name =>
    cases hkind : g.tokenKind? name with
    | none => exact .inr (.inl ⟨name, rfl, hkind, by simp only [resolution, resolveName, hkind]⟩)
    | some kind => exact .inl ⟨kind, hkind⟩
  | literal image =>
    cases hdefined : g.literalDefinition? image with
    | none =>
      exact .inr (.inr ⟨image, rfl, hdefined, by simp only [resolution, resolveLiteral, hdefined]⟩)
    | some t => exact .inl ⟨t, hdefined⟩
  | _ => exact .inl trivial

theorem knows_of_token {shape : Node.Kind} (h : g.resolution shape = .token kind) :
    g.Knows shape := by
  rcases g.knows_or_fails shape with hknows | ⟨name, -, -, hfault⟩ | ⟨image, -, -, hundefined⟩
  · exact hknows
  · cases h.symm.trans hfault
  · cases h.symm.trans hundefined

theorem Claims.resolution_eq (hclaims : g.Claims g') (h : g.TokenTable) {shape : Node.Kind}
    (hknows : g.Knows shape) : g'.resolution shape = g.resolution shape ∧ g'.Knows shape := by
  obtain ⟨image, span, -, rfl⟩ := hclaims
  cases shape with
  | tokenName name =>
    obtain ⟨kind, hkind⟩ := hknows
    have hkind' : (g.pushLiteral image span).tokenKind? name = some kind := Symbols.index?_add hkind
    have htoken : (g.pushLiteral image span).tokens[kind]? = g.tokens[kind]? := by
      have hlt := h.lt_of_tokenKind? hkind
      rw [tokens_pushLiteral, Array.getElem?_push_lt hlt, Array.getElem?_eq_getElem hlt]
    refine ⟨?_, kind, hkind'⟩
    simp only [resolution, resolveName, hkind, hkind', htoken]
  | literal text =>
    obtain ⟨t, ht⟩ := hknows
    have ht' : (g.pushLiteral image span).literalDefinition? text = some t := by
      rw [literalDefinition?] at ht ⊢
      rw [tokens_pushLiteral, Array.toList_push, List.find?_append]
      exact Option.or_eq_some_iff.2 (.inl ht)
    refine ⟨?_, t, ht'⟩
    simp only [resolution, resolveLiteral, ht, ht']
  | _ => exact ⟨rfl, trivial⟩

theorem Claimed.resolution_eq (hclaimed : g.Claimed g') (h : g.TokenTable) {shape : Node.Kind}
    (hknows : g.Knows shape) : g'.resolution shape = g.resolution shape ∧ g'.Knows shape := by
  induction hclaimed with
  | refl => exact ⟨rfl, hknows⟩
  | @tail g₁ g₂ hclaimed hclaims ih =>
    obtain ⟨heq, hknows₁⟩ := ih
    obtain ⟨heq', hknows₂⟩ := hclaims.resolution_eq (h.claimed hclaimed) hknows₁
    exact ⟨heq'.trans heq, hknows₂⟩

theorem TokenTable.resolution_pushLiteral (h : g.TokenTable)
    (hnone : g.literalDefinition? image = none) (span : Span) :
    (g.pushLiteral image span).resolution (.literal image) = .token g.tokens.size := by
  have hkind : g.tokens.size ≠ eofKind :=
    Nat.pos_iff_ne_zero.1 (Array.getElem?_eq_some_iff.1 h.eof).1
  have hself : (TokenDef.ofLiteral g.tokens.size image span).isLiteral image = true := by
    simp [TokenDef.isLiteral, TokenDef.ofLiteral]
  have hdefined : (g.pushLiteral image span).literalDefinition? image =
      some (.ofLiteral g.tokens.size image span) := by
    rw [literalDefinition?] at hnone ⊢
    rw [tokens_pushLiteral, Array.toList_push, List.find?_append]
    refine Option.or_eq_some_iff.2 (.inr ⟨hnone, ?_⟩)
    simp [hself, isActiveIn_ofLiteral hkind]
  simp only [resolution, resolveLiteral, hdefined]
  rfl

def Settled (g : Grammar) (n n' : Node) : Prop :=
  n' = n ∨ ∃ kind, g.resolution n.kind = .token kind ∧ n' = { n with kind := .token kind }

theorem settled_resolveNodes (h : g.TokenTable) (ns : List Node)
    (hclaimed : (g.resolveNodes ns).1.Claimed g') :
    List.Forall₂ g'.Settled ns (g.resolveNodes ns).2.1 := by
  induction ns generalizing g with
  | nil => exact .nil
  | cons n ns ih =>
    rw [resolveNodes] at hclaimed ⊢
    split at hclaimed
    · exact .cons (.inl rfl) (ih h hclaimed)
    · next kind hkind =>
      have hall : g.Claimed g' := (g.claimed_resolveNodes ns).trans hclaimed
      refine .cons (.inr ⟨kind, ?_, rfl⟩) (ih h hclaimed)
      rw [(hall.resolution_eq h (knows_of_token hkind)).1, hkind]
    · next image himage =>
      obtain ⟨hshape, hnone⟩ := eq_literal_of_undefined himage
      have hnext : (g.pushLiteral image n.span).TokenTable :=
        h.claims ⟨image, n.span, hnone, rfl⟩
      have hkind := h.resolution_pushLiteral hnone n.span
      have hall : (g.pushLiteral image n.span).Claimed g' :=
        (claimed_resolveNodes _ ns).trans hclaimed
      refine .cons (.inr ⟨g.tokens.size, ?_, rfl⟩) (ih hnext hclaimed)
      rw [hshape, (hall.resolution_eq hnext (knows_of_token hkind)).1, hkind]
    · exact .cons (.inl rfl) (ih h hclaimed)

theorem settled_validate (h : g.TokenTable) {id : Nat} {n n' : Node}
    (hn : g.nodes[id]? = some n) (hn' : g.validate.1.nodes[id]? = some n') :
    g.validate.1.Settled n n' := by
  have hall := settled_resolveNodes h g.nodes.toList (.refl)
  rw [← Array.getElem?_toList] at hn hn'
  obtain ⟨hlt, rfl⟩ := List.getElem?_eq_some_iff.1 hn
  obtain ⟨hlt', rfl⟩ := List.getElem?_eq_some_iff.1 hn'
  exact hall.get hlt hlt'

/-- Each token has its own place for its kind. The names are found at the places of their tokens
unless a declared token has the name that a literal's token is given. Where they are, a name that
validation resolves is that of the token it is resolved to. -/
theorem tokenTable_consistent (g : Grammar) (h : g.Assembled) :
    (∀ (k : Nat) t, g.tokens[k]? = some t → t.kind = k) ∧
    (g.Consistent ↔ ∀ s ∈ g.tokens, ∀ t ∈ g.tokens,
      s.anonymous = false → t.anonymous = true → s.name ≠ t.name) ∧
    (g.validate.1.Consistent → ∀ id name kind, g.HasKind id (.tokenName name) →
      g.validate.1.HasKind id (.token kind) →
        ∃ t, g.validate.1.tokens[kind]? = some t ∧ t.name = name) := by
  refine ⟨g.tokens_numbered, ⟨Consistent.apart, h.tokenTable.consistent⟩, ?_⟩
  intro hconsistent id name kind hname hkind
  obtain ⟨n, hn, hshape⟩ := Option.map_eq_some_iff.1 hname
  obtain ⟨n', hn', hshape'⟩ := Option.map_eq_some_iff.1 hkind
  refine hconsistent.name_eq h.validated.tokenTable ?_
  rcases settled_validate h.tokenTable hn hn' with rfl | ⟨kind', hresolved, rfl⟩
  · rw [hshape] at hshape'
    cases hshape'
  · obtain rfl : kind' = kind := by simpa using hshape'
    rw [hshape] at hresolved
    exact tokenKind?_of_resolveName hresolved

def namedAndQuoted : Grammar :=
  ofDeclarations {}
    [.token { name := "N", pattern := .literal "n" },
      .production "P" none .none (.seq [.token "N", .literal "x"])]

theorem tokenTable_consistent_namedAndQuoted :
    namedAndQuoted.Assembled ∧ namedAndQuoted.Consistent ∧
      ∃ t, namedAndQuoted.validate.1.tokens[1]? = some t ∧ t.name = "N" := by
  have hassembled : namedAndQuoted.Assembled := Built.assembled (.declared _ _)
  have hvalidated := hassembled.validated
  have hconsistent : namedAndQuoted.validate.1.Consistent :=
    (tokenTable_consistent _ hvalidated).2.1.2 (by decide +kernel)
  refine ⟨hassembled, (tokenTable_consistent _ hassembled).2.1.2 (by decide +kernel), ?_⟩
  exact (tokenTable_consistent _ hassembled).2.2 hconsistent 0 "N" 1 rfl rfl

/-- A token is declared by the name that the literal `"x"` gives to its own, and `N` after both. The
name of the literal's token is there already, so `N` comes to a place before its token, and a
reference to `N` becomes one to the literal. -/
theorem quotedName_misplaces :
    let g := ofDeclarations {}
      [.token { name := "\"x\"", pattern := .literal "y" },
        .production "P" none .none (.seq [.literal "x", .token "N"]),
        .token { name := "N", pattern := .literal "n" }]
    g.tokenNames.size = 3 ∧ g.tokens.size = 4 ∧ g.tokenName 3 = "N" ∧ g.tokenKind? "N" = some 2 ∧
      g.validate.2 = [] ∧ g.kindOf 1 = .tokenName "N" ∧ g.validate.1.kindOf 1 = .token 2 ∧
      g.validate.1.tokenName 2 ≠ "N" := by
  decide +kernel

end PredictiveParsing.Grammar
