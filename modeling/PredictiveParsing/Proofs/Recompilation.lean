import PredictiveParsing.Compilation
import PredictiveParsing.Proofs.NameResolution

/-!
# A second compilation finds what the first one left

Validation resolves names with the tokens that are there when it comes to them, and literals get
tokens on the way. A second validation finds all of them. It resolves what the first one resolved to
the same kinds and reports the same faults, unless a name that was unknown has become that of a
literal's token. All else that a compilation does depends on what validation leaves. Main statement:
`compile_compile`.
-/
namespace PredictiveParsing.Grammar

variable {g g' base : Grammar} {name : String}

/-- The names that `base` did not have and that nodes are left with are still unknown. -/
def StillUnknown (base g : Grammar) (ns : List Node) : Prop :=
  ∀ n ∈ ns, ∀ name, n.kind = .tokenName name → base.tokenKind? name = none →
    g.tokenKind? name = none

def faultOf (g : Grammar) (n : Node) : Option Diagnostic :=
  match g.resolution n.kind with
  | .fault kind message => some (.ofKind kind n.span message)
  | _ => none

def IsStuck (g : Grammar) (n : Node) : Prop :=
  g.resolution n.kind = .other ∨ ∃ kind message, g.resolution n.kind = .fault kind message

theorem resolveNodes_of_stuck {ns : List Node} (h : ∀ n ∈ ns, g.IsStuck n) :
    g.resolveNodes ns = (g, ns, ns.filterMap g.faultOf) := by
  induction ns with
  | nil => rfl
  | cons n ns ih =>
    simp only [List.mem_cons, forall_eq_or_imp] at h
    rcases h.1 with hother | ⟨kind, message, hfault⟩
    · simp [resolveNodes, faultOf, hother, ih h.2]
    · simp [resolveNodes, faultOf, hfault, ih h.2]

theorem Claimed.resolution_of_unknown (hbase : base.TokenTable) (hclaimed : base.Claimed g)
    (hrest : g.Claimed g') {shape : Node.Kind}
    (hliteral : ∀ image, g.resolution shape ≠ .undefinedLiteral image)
    (hunknown : ∀ name, shape = .tokenName name → base.tokenKind? name = none →
      g'.tokenKind? name = none) : g'.resolution shape = g.resolution shape := by
  rcases g.knows_or_fails shape with
    hknows | ⟨name, rfl, hnone, hfault⟩ | ⟨image, -, -, hundefined⟩
  · exact (hrest.resolution_eq (hbase.claimed hclaimed) hknows).1
  · have hbefore : base.tokenKind? name = none := by
      by_contra hsome
      have hknows : base.Knows (.tokenName name) := Option.ne_none_iff_exists'.1 hsome
      obtain ⟨kind, hkind⟩ := (hclaimed.resolution_eq hbase hknows).2
      rw [hnone] at hkind
      cases hkind
    rw [hfault]
    simp only [resolution, resolveName, hunknown name rfl hbefore]
  · exact absurd hundefined (hliteral image)

/-- A run that starts with `base` and ends with `g'`, from where it has come to `g`: it leaves nodes
that `g'` can do nothing about, and reports what `g'` has to say of them. -/
theorem stuck_resolveNodes (hbase : base.TokenTable) (hclaimed : base.Claimed g) (ns : List Node)
    (hrest : (g.resolveNodes ns).1.Claimed g')
    (hunknown : StillUnknown base g' (g.resolveNodes ns).2.1) :
    (∀ n ∈ (g.resolveNodes ns).2.1, g'.IsStuck n) ∧
      (g.resolveNodes ns).2.2 = (g.resolveNodes ns).2.1.filterMap g'.faultOf := by
  induction ns generalizing g with
  | nil => exact ⟨by simp [resolveNodes], rfl⟩
  | cons n ns ih =>
    have hsame (hall : g.Claimed g')
        (hliteral : ∀ image, g.resolution n.kind ≠ .undefinedLiteral image)
        (hstill : ∀ name, n.kind = .tokenName name → base.tokenKind? name = none →
          g'.tokenKind? name = none) : g'.resolution n.kind = g.resolution n.kind :=
      Claimed.resolution_of_unknown hbase hclaimed hall hliteral hstill
    have htoken (kind : Nat) : g'.IsStuck { n with kind := .token kind } := .inl rfl
    cases hshape : g.resolution n.kind with
    | other =>
      simp only [resolveNodes, hshape, StillUnknown, List.forall_mem_cons] at hrest hunknown ⊢
      have hother := hsame ((g.claimed_resolveNodes ns).trans hrest) (by simp [hshape]) hunknown.1
      obtain ⟨hstuck, hfaults⟩ := ih hclaimed hrest hunknown.2
      refine ⟨⟨.inl (hother.trans hshape), hstuck⟩, ?_⟩
      rw [hfaults, List.filterMap_cons, faultOf, hother, hshape]
    | token kind =>
      simp only [resolveNodes, hshape, StillUnknown, List.forall_mem_cons] at hrest hunknown ⊢
      obtain ⟨hstuck, hfaults⟩ := ih hclaimed hrest hunknown.2
      exact ⟨⟨htoken kind, hstuck⟩, hfaults⟩
    | undefinedLiteral image =>
      simp only [resolveNodes, hshape, StillUnknown, List.forall_mem_cons] at hrest hunknown ⊢
      have hnone := (eq_literal_of_undefined hshape).2
      obtain ⟨hstuck, hfaults⟩ := ih (hclaimed.tail ⟨image, n.span, hnone, rfl⟩) hrest hunknown.2
      exact ⟨⟨htoken g.tokens.size, hstuck⟩, hfaults⟩
    | fault kind message =>
      simp only [resolveNodes, hshape, StillUnknown, List.forall_mem_cons] at hrest hunknown ⊢
      have hfault := hsame ((g.claimed_resolveNodes ns).trans hrest) (by simp [hshape]) hunknown.1
      obtain ⟨hstuck, hfaults⟩ := ih hclaimed hrest hunknown.2
      refine ⟨⟨.inr ⟨kind, message, hfault.trans hshape⟩, hstuck⟩, ?_⟩
      rw [hfaults, List.filterMap_cons, faultOf, hfault, hshape]

theorem Claimed.checks_eq (hclaimed : g.Claimed g') :
    g'.declarationErrors = g.declarationErrors ∧ g'.checkStates = g.checkStates := by
  induction hclaimed with
  | refl => exact ⟨rfl, rfl⟩
  | @tail g₁ g₂ _ hclaims ih =>
    obtain ⟨image, span, -, rfl⟩ := hclaims
    have hnone : stateReferences (.ofLiteral g₁.tokens.size image span) = [] := rfl
    refine ⟨ih.1, ?_⟩
    rw [← ih.2, checkStates, tokens_pushLiteral, Array.toList_push, List.flatMap_append]
    simp only [List.flatMap_cons, hnone, List.filter_nil, List.map_nil, List.flatMap_nil,
      List.append_nil]
    rfl

theorem validate_validate (h : g.TokenTable)
    (hunknown : ∀ id name, g.validate.1.HasKind id (.tokenName name) →
      g.tokenKind? name = none → g.validate.1.tokenKind? name = none) :
    g.validate.1.validate = g.validate := by
  have hnodes : g.validate.1.nodes.toList = (g.resolveNodes g.nodes.toList).2.1 := rfl
  have hstill : StillUnknown g g.validate.1 g.validate.1.nodes.toList := by
    intro n hn name hname
    obtain ⟨id, hid, rfl⟩ := Array.mem_iff_getElem.1 (Array.mem_toList_iff.1 hn)
    apply hunknown id name
    rw [HasKind, Array.getElem?_eq_getElem hid, Option.map_some, hname]
  obtain ⟨hstuck, hfaults⟩ := stuck_resolveNodes h .refl g.nodes.toList .refl hstill
  have hchecks : g.validate.1.declarationErrors = g.declarationErrors ∧
      g.validate.1.checkStates = g.checkStates :=
    (g.claimed_resolveNodes g.nodes.toList).checks_eq
  have hsecond : g.validate.1.resolveTokens = g.resolveTokens := by
    rw [resolveTokens, hnodes, resolveNodes_of_stuck (g := g.validate.1) hstuck, resolveTokens]
    exact Prod.ext rfl hfaults.symm
  rw [validate, hsecond, hchecks.1, hchecks.2, validate]

theorem compile_grammar (g : Grammar) : g.compile.1.grammar = g.validate.1 := by
  simp only [compile]
  split
  · rfl
  · split
    · rfl
    · split <;> rfl

/-- A second compilation leaves and reports what the first one did, if no name that validation could
not resolve is that of a token that it gave to a literal. -/
theorem compile_compile (g : Grammar) (h : g.Assembled)
    (hunknown : ∀ id name, g.validate.1.HasKind id (.tokenName name) →
      g.tokenKind? name = none → g.validate.1.tokenKind? name = none) :
    g.compile.1.grammar.compile = g.compile := by
  rw [compile_grammar, compile, validate_validate h.tokenTable hunknown, compile]

def unknownAndQuoted : Grammar :=
  ofDeclarations {} [.production "P" none .none (.seq [.token "T", .literal "x"])]

theorem compile_compile_unknownAndQuoted :
    unknownAndQuoted.Assembled ∧ unknownAndQuoted.compile.2.stoppedAfter = some .validation ∧
      unknownAndQuoted.compile.1.grammar.compile = unknownAndQuoted.compile := by
  have hassembled : unknownAndQuoted.Assembled := Built.assembled (.declared _ _)
  refine ⟨hassembled, by decide +kernel, compile_compile _ hassembled ?_⟩
  intro id name hkind _
  have hsize : unknownAndQuoted.validate.1.nodes.size = 3 := rfl
  match id, hsize ▸ hkind.lt with
  | 0, _ =>
    have hname : some (Node.Kind.tokenName "T") = some (.tokenName name) := hkind
    cases hname
    rfl
  | 1, _ => cases hkind
  | 2, _ => cases hkind

/-- Where the production is declared, the token `T` is the literal's, and not when the states are
known. So validation gives the literal a token of its own, by the name that the reference before it
does not find, and the second compilation does not stop where the first one does. -/
theorem compile_finds_quotedName :
    let g := ofDeclarations {}
      [.token { name := "T", pattern := .literal "x", scope := .only ["DEFAULT"] },
        .production "P" none .none (.seq [.token "\"x\"", .literal "x"]),
        .state "MAIN" .none, .state "DEFAULT" .none]
    g.compile.2.stoppedAfter = some .validation ∧
      g.compile.1.grammar.compile.2.stoppedAfter = none := by
  decide +kernel

end PredictiveParsing.Grammar
