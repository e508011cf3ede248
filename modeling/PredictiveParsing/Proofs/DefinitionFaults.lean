import PredictiveParsing.Proofs.Inlining
import PredictiveParsing.Proofs.Stages

/-!
# Definitions that keep a lexer from being built

A definition has no usable pattern if its pattern does not pass the check, if it leads to a
reference that names nothing or to a cycle of references, or if it is public and matches the empty
text once its references are inlined. A lexer is built unless there is such a definition, and each
of them is reported once. Main statement: `buildLexer_fails_exactly`.
-/
namespace PredictiveParsing

namespace Pattern

variable {refs : String → Option Pattern} {ignoreCase : Bool}

theorem allMatchEmpty_iff {ps : List Pattern} :
    allMatchEmpty ps = true ↔ ∀ p ∈ ps, p.matchesEmpty = true := by
  induction ps with
  | nil => simp [allMatchEmpty]
  | cons p ps ih => simp [allMatchEmpty, ih]

theorem anyMatchesEmpty_iff {ps : List Pattern} :
    anyMatchesEmpty ps = true ↔ ∃ p ∈ ps, p.matchesEmpty = true := by
  induction ps with
  | nil => simp [anyMatchesEmpty]
  | cons p ps ih => simp [anyMatchesEmpty, ih]

theorem references_of_mem_parts {p q : Pattern} (h : p.references = []) (hq : q ∈ p.parts) :
    q.references = [] := by
  cases p with
  | seq items | alt items =>
    rw [references, referencesOf_eq, List.flatMap_eq_nil_iff] at h
    exact h q hq
  | star body | plus body | opt body | rep body min max =>
    obtain rfl := List.mem_singleton.1 hq
    exact h
  | literal text | charClass cls | ref name => exact absurd hq List.not_mem_nil

variable {env : String → Language Nat}

theorem nil_mem_sequenceLanguage {ps : List Pattern} :
    [] ∈ sequenceLanguage ignoreCase env ps ↔ ∀ p ∈ ps, [] ∈ p.language ignoreCase env := by
  induction ps with
  | nil => simp [sequenceLanguage]
  | cons p ps ih =>
    rw [sequenceLanguage, Language.mem_mul, List.forall_mem_cons, ← ih]
    constructor
    · rintro ⟨u, hu, v, hv, happend⟩
      obtain ⟨rfl, rfl⟩ := List.append_eq_nil_iff.1 happend
      exact ⟨hu, hv⟩
    · rintro ⟨hu, hv⟩
      exact ⟨[], hu, [], hv, rfl⟩

theorem nil_mem_choiceLanguage {ps : List Pattern} :
    [] ∈ choiceLanguage ignoreCase env ps ↔ ∃ p ∈ ps, [] ∈ p.language ignoreCase env := by
  induction ps with
  | nil => simp [choiceLanguage]
  | cons p ps ih => rw [choiceLanguage, Language.mem_add, ih, List.exists_mem_cons_iff]

theorem nil_mem_repeatedLanguage {l : Language Nat} {min : Nat} {max : Option Nat}
    (hmax : ∀ m ∈ max, min ≤ m) : [] ∈ repeatedLanguage l min max ↔ min = 0 ∨ [] ∈ l := by
  rw [mem_repeatedLanguage hmax]
  constructor
  · rintro ⟨ws, hmin, -, hws, hempty⟩
    cases ws with
    | nil => exact .inl (Nat.le_zero.1 hmin)
    | cons w ws =>
      have hw : w = [] := List.flatten_eq_nil_iff.1 hempty w List.mem_cons_self
      exact .inr (hw ▸ hws w List.mem_cons_self)
  · intro h
    refine ⟨List.replicate min [], by simp, by simpa using hmax, fun w hw => ?_, by simp⟩
    obtain ⟨hne, rfl⟩ := List.mem_replicate.1 hw
    exact h.resolve_left hne

theorem matchesEmpty_iff_nil_mem {p : Pattern} (hrefs : p.references = [])
    (hfault : p.fault? = none) :
    p.matchesEmpty = true ↔ [] ∈ p.language ignoreCase env := by
  induction p using parts_induction with
  | step p ih =>
    have hparts : ∀ q ∈ p.parts, q.matchesEmpty = true ↔ [] ∈ q.language ignoreCase env :=
      fun q hq => ih q hq (references_of_mem_parts hrefs hq)
        ((fault?_eq_none_iff_parts.1 hfault).2 q hq)
    cases p with
    | literal text =>
      rw [matchesEmpty, language, mem_literalLanguage, List.forall₂_nil_right_iff]
      simp
    | charClass cls => simp [matchesEmpty, language, mem_letterLanguage]
    | seq items =>
      rw [matchesEmpty, allMatchEmpty_iff, language, nil_mem_sequenceLanguage]
      exact forall₂_congr hparts
    | alt items =>
      rw [matchesEmpty, anyMatchesEmpty_iff, language, nil_mem_choiceLanguage]
      exact exists_congr fun q => and_congr_right (hparts q)
    | star body =>
      rw [matchesEmpty, language, nil_mem_repeatedLanguage (by simp)]
      simp
    | plus body =>
      rw [matchesEmpty, language, nil_mem_repeatedLanguage (by simp),
        hparts body List.mem_cons_self]
      simp
    | opt body =>
      rw [matchesEmpty, language, nil_mem_repeatedLanguage (by simp)]
      simp
    | rep body min max =>
      have hbounds : boundsFault? min max = none := (fault?_eq_none_iff_parts.1 hfault).1
      rw [matchesEmpty, language, nil_mem_repeatedLanguage (le_of_boundsFault? hbounds),
        Bool.or_eq_true, beq_iff_eq, hparts body List.mem_cons_self]
    | ref name => cases hrefs

theorem matchesEmpty_iff {p : Pattern} (hrefs : p.references = []) (hfault : p.fault? = none) :
    p.matchesEmpty = true ↔ Matches refs ignoreCase p [] := by
  rw [matchesEmpty_iff_nil_mem hrefs hfault, mem_language_iff refs ignoreCase p hfault,
    matches_iff_spells, List.map_nil]

end Pattern

namespace Grammar

variable {g : Grammar} {t : TokenDef} {d : Diagnostic}

/-- The pattern of the definition does not pass the check, its references do not all lead to an end,
or it is public and matches the empty text. -/
def Unusable (g : Grammar) (t : TokenDef) : Prop :=
  t.pattern.fault? ≠ none ∨ g.Dangling t.kind ∨ g.Looping t.kind ∨
    t.isPrivate = false ∧ ∃ q, g.Inlines t.pattern q ∧ q.matchesEmpty = true

inductive Blames (g : Grammar) (t : TokenDef) : Diagnostic → Prop
  | malformed {e : PatternError} (h : t.pattern.fault? = some e) :
      Blames g t (.ofKind .patternSyntax t.span s!"token {t.name}: {e.message}")
  | dangling {name : String} (hformed : t.pattern.fault? = none)
      (h : g.Tells t.kind (.undefined name)) :
      Blames g t
        (.ofKind .undefinedToken t.span s!"token {t.name} refers to undefined token {name}")
  | looping {names : List String} {cycle : String} (hformed : t.pattern.fault? = none)
      (h : g.Tells t.kind (.cycle names)) (hcycle : cycle = " -> ".intercalate names) :
      Blames g t
        (.ofKind .patternReferenceLoop t.span s!"token {t.name} refers to itself: {cycle}")
  | empty {q : Pattern} (hformed : t.pattern.fault? = none) (hpublic : t.isPrivate = false)
      (hq : g.Inlines t.pattern q) (h : q.matchesEmpty = true) :
      Blames g t (.ofKind .emptyMatchPattern t.span s!"token {t.name} matches the empty string")

theorem Blames.unusable (h : g.Blames t d) : g.Unusable t := by
  cases h with
  | malformed h => exact .inl (by simp [h])
  | dangling _ h => exact .inr (.inl h.dangling)
  | looping _ h => exact .inr (.inr (.inl h.looping))
  | empty _ hpublic hq h => exact .inr (.inr (.inr ⟨hpublic, _, hq, h⟩))

theorem blames_of_usablePattern (ht : t ∈ g.tokens) (h : g.usablePattern t = .error d) :
    g.Blames t d := by
  rw [usablePattern] at h
  split at h
  · next e hfault =>
    obtain rfl := Except.error.inj h
    exact .malformed hfault
  · next hformed =>
    split at h
    · next name herror =>
      obtain rfl := Except.error.inj h
      exact .dangling hformed (tells_of_inlined_error ht herror)
    · next names herror =>
      obtain rfl := Except.error.inj h
      exact .looping hformed (tells_of_inlined_error ht herror) rfl
    · next q hq =>
      split at h
      · next hempty =>
        obtain rfl := Except.error.inj h
        rw [Bool.and_eq_true, Bool.not_eq_true'] at hempty
        exact .empty hformed hempty.1 (inlines_of_inlined hq) hempty.2
      · cases h

theorem not_unusable_of_usablePattern (ht : t ∈ g.tokens) {q : Pattern}
    (h : g.usablePattern t = .ok q) : ¬ g.Unusable t := by
  obtain ⟨hformed, hinlined⟩ := fault?_of_usablePattern h
  have hq := inlines_of_inlined hinlined
  have hgrounded := grounded_of_inlines ht hq
  rintro (hfault | hdangling | hlooping | ⟨hpublic, q', hq', hempty⟩)
  · exact hfault hformed
  · exact hgrounded.not_dangling hdangling
  · exact hgrounded.not_looping hlooping
  · obtain rfl := Except.ok.inj (hinlined.symm.trans ((inlines_iff_inlined ht).1 hq'))
    simp [usablePattern, hformed, hinlined, hpublic, hempty] at h

theorem blames_of_definitionFault? (ht : t ∈ g.tokens) (h : g.definitionFault? t = some d) :
    t.kind ≠ eofKind ∧ g.Blames t d := by
  rw [definitionFault?] at h
  split at h
  · cases h
  · next hkind =>
    split at h
    · next herror =>
      obtain rfl := Option.some.inj h
      exact ⟨hkind, blames_of_usablePattern ht herror⟩
    · cases h

theorem isSome_definitionFault?_iff (ht : t ∈ g.tokens) :
    (g.definitionFault? t).isSome = true ↔ t.kind ≠ eofKind ∧ g.Unusable t := by
  constructor
  · intro h
    obtain ⟨d, hd⟩ := Option.isSome_iff_exists.1 h
    obtain ⟨hkind, hblames⟩ := blames_of_definitionFault? ht hd
    exact ⟨hkind, hblames.unusable⟩
  · rintro ⟨hkind, hunusable⟩
    rw [definitionFault?, if_neg hkind]
    cases h : g.usablePattern t with
    | error d => rfl
    | ok q => exact absurd hunusable (not_unusable_of_usablePattern ht h)

theorem errors_buildLexer (g : Grammar) : g.buildLexer.2.filter (·.severity = .error) =
    g.tokens.toList.filterMap g.definitionFault? := by
  have hstates : g.checkStateReachability.filter (·.severity = .error) = [] := by
    rw [List.filter_eq_nil_iff]
    intro d hd
    simp [severity_of_mem_checkStateReachability hd]
  rw [buildLexer]
  split
  · next hfaults =>
    rw [List.isEmpty_iff] at hfaults
    rw [hfaults, List.filter_append, hstates, List.nil_append, List.filter_eq_nil_iff]
    intro d hd
    obtain ⟨built, hbuilt, hd⟩ := List.mem_flatMap.1 hd
    obtain ⟨state, -, rfl⟩ := List.mem_map.1 hbuilt
    simp [severity_of_mem_buildAutomaton hd]
  · rw [List.filter_append, hstates, List.append_nil, List.filter_eq_self]
    intro d hd
    obtain ⟨t, -, ht⟩ := List.mem_filterMap.1 hd
    simp [severity_of_definitionFault? ht]

theorem forall₂_filterMap {α β : Type} {f : α → Option β} {R : α → β → Prop} {l : List α}
    (h : ∀ a ∈ l, ∀ b, f a = some b → R a b) :
    List.Forall₂ R (l.filter fun a => (f a).isSome) (l.filterMap f) := by
  induction l with
  | nil => exact .nil
  | cons a l ih =>
    rw [List.forall_mem_cons] at h
    cases hfa : f a with
    | none => simpa [hfa] using ih h.2
    | some b => simpa [hfa] using ⟨h.1 b hfa, ih h.2⟩

theorem buildLexer_eq_none_iff (g : Grammar) : g.buildLexer.1 = none ↔
    ∃ t ∈ g.tokens, t.kind ≠ eofKind ∧ g.Unusable t := by
  have hfaults : g.buildLexer.1 = none ↔ ∃ t ∈ g.tokens, (g.definitionFault? t).isSome = true := by
    rw [buildLexer]
    split
    · next hempty =>
      rw [List.isEmpty_iff, List.filterMap_eq_nil_iff] at hempty
      simpa using hempty
    · next hsome =>
      rw [List.isEmpty_iff, List.filterMap_eq_nil_iff] at hsome
      push Not at hsome
      simpa [Option.isSome_iff_ne_none] using hsome
  rw [hfaults]
  exact exists_congr fun t => and_congr_right isSome_definitionFault?_iff

/-- Inlining comes to an end with any amount of fuel that is enough for all definitions. A lexer is
missing if and only if a definition other than that of the end of input is unusable, and the errors
reported are one for each such definition, in their order. Otherwise all references have been
inlined. Whether a pattern without references matches the empty text is told by its structure. -/
theorem buildLexer_fails_exactly (g : Grammar) :
    (∀ t ∈ g.tokens, ∀ fuel ≥ g.tokens.size,
      t.pattern.substitute (g.inlineName fuel [t.kind]) = g.inlined t) ∧
    (g.buildLexer.1 = none ↔ ∃ t ∈ g.tokens, t.kind ≠ eofKind ∧ g.Unusable t) ∧
    (∃ faulty : List TokenDef, faulty.Sublist g.tokens.toList ∧
      (∀ t ∈ g.tokens, t ∈ faulty ↔ t.kind ≠ eofKind ∧ g.Unusable t) ∧
      List.Forall₂ g.Blames faulty (g.buildLexer.2.filter (·.severity = .error))) ∧
    (∀ lexer, g.buildLexer.1 = some lexer → ∀ t ∈ g.tokens, t.kind ≠ eofKind →
      ∃ q, g.usablePattern t = .ok q ∧ g.Inlines t.pattern q ∧ q.references = []) ∧
    (∀ p : Pattern, p.references = [] → p.fault? = none → ∀ refs ignoreCase,
      p.matchesEmpty = true ↔ Pattern.Matches refs ignoreCase p []) := by
  refine ⟨fun t ht fuel hfuel => inlined_of_le ht hfuel, buildLexer_eq_none_iff g, ?_, ?_,
    fun p hrefs hfault _ _ => Pattern.matchesEmpty_iff hrefs hfault⟩
  · refine ⟨g.tokens.toList.filter fun t => (g.definitionFault? t).isSome, List.filter_sublist,
      fun t ht => ?_, ?_⟩
    · rw [List.mem_filter, and_iff_right (Array.mem_toList_iff.2 ht)]
      exact isSome_definitionFault?_iff ht
    · rw [errors_buildLexer]
      apply forall₂_filterMap
      intro t ht d hd
      exact (blames_of_definitionFault? (Array.mem_toList_iff.1 ht) hd).2
  · intro lexer hlexer t ht hkind
    obtain ⟨q, hq⟩ := exists_usablePattern hlexer ht hkind
    have hinlines := inlines_of_inlined (fault?_of_usablePattern hq).2
    exact ⟨q, hq, hinlines, hinlines.references_eq_nil⟩

/-- Two definitions that use each other, one that uses one of them, one with a name that stands for
nothing, and one that is empty by way of a private definition. -/
def tangled : Grammar :=
  ofDeclarations {} [
    .token { name := "Left", pattern := .seq [.literal "l", .ref "Right"] },
    .token { name := "Right", pattern := .seq [.literal "r", .ref "Left"] },
    .token { name := "Outside", pattern := .opt (.ref "Left") },
    .token { name := "Lost", pattern := .plus (.ref "Nowhere") },
    .token { name := "Blanks", pattern := .ref "Blank" },
    .token { name := "Blank", pattern := .star (.literal " "), isPrivate := true },
    .token { name := "Plain", pattern := .literal "p" }]

theorem buildLexer_fails_exactly_tangled :
    (∃ t ∈ tangled.tokens, t.kind ≠ eofKind ∧ tangled.Unusable t) ∧
    (∃ faulty : List TokenDef, faulty.length = 5 ∧
      ∀ t ∈ tangled.tokens, t ∈ faulty ↔ t.kind ≠ eofKind ∧ tangled.Unusable t) ∧
    (∃ q, wordGrammar.Inlines (.plus (.ref "Letter")) q ∧ q.references = []) ∧
    Pattern.Matches (fun _ => none) false (.star (.literal " ")) [] := by
  obtain ⟨-, hmissing, ⟨faulty, -, hfaulty, hblames⟩, -, hempty⟩ := buildLexer_fails_exactly tangled
  have hnone : tangled.buildLexer.1 = none := by decide +kernel
  have herrors : (tangled.buildLexer.2.filter (·.severity = .error)).length = 5 := by
    decide +kernel
  refine ⟨hmissing.1 hnone, ⟨faulty, hblames.length_eq.trans herrors, hfaulty⟩, ?_, ?_⟩
  · have hsome : wordGrammar.buildLexer.1.isSome := by decide +kernel
    obtain ⟨lexer, hlexer⟩ := Option.isSome_iff_exists.1 hsome
    have hword : (wordGrammar.tokens[2]?.map fun t => t.kind) = some 2 := rfl
    obtain ⟨t, ht, hkind⟩ := Option.map_eq_some_iff.1 hword
    obtain ⟨q, -, hq, hrefs⟩ := (buildLexer_fails_exactly wordGrammar).2.2.2.1 lexer hlexer t
      (Array.mem_of_getElem? ht) (by rw [hkind]; decide)
    obtain rfl := Option.some.inj ht
    exact ⟨q, hq, hrefs⟩
  · exact (hempty (.star (.literal " ")) rfl rfl _ _).1 rfl

end Grammar
end PredictiveParsing
