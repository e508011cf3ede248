import PredictiveParsing.Lexer.Build
import PredictiveParsing.Proofs.CodePoints
import PredictiveParsing.Proofs.Fragments
import PredictiveParsing.Proofs.Minimization

/-!
# Lexers find the longest match

Inlining keeps the texts of a pattern, as a reference matches what the definition it names matches.
The automaton of a lexical state then accepts a text as the lowest kind that matches it, pruned and
minimized or not, and the longest match is the last verdict on the beginnings of a text. Main
statement: `longestMatch_buildLexer`.
-/
namespace PredictiveParsing

open Pattern

theorem Except.map_eq_ok {ε α β : Type} {f : α → β} {x : Except ε α} {y : β} (h : x.map f = .ok y) :
    ∃ z, x = .ok z ∧ f z = y := by
  cases x with
  | error e => cases h
  | ok z => exact ⟨z, rfl, Except.ok.inj h⟩

namespace Pattern

section

variable {ε : Type} {f : String → Except ε Pattern} {ignoreCase : Bool}
  {env env' : String → Language Nat}

mutual

theorem language_substitute (hf : ∀ name q, f name = .ok q → env name = q.language ignoreCase env')
    (p q : Pattern) (h : p.substitute f = .ok q) :
    p.language ignoreCase env = q.language ignoreCase env' := by
  match p with
  | .literal text =>
    obtain rfl := Except.ok.inj h
    rfl
  | .charClass cls =>
    obtain rfl := Except.ok.inj h
    rfl
  | .seq items =>
    obtain ⟨qs, hqs, rfl⟩ := Except.map_eq_ok h
    exact (languages_substituteAll hf items qs hqs).1
  | .alt items =>
    obtain ⟨qs, hqs, rfl⟩ := Except.map_eq_ok h
    exact (languages_substituteAll hf items qs hqs).2
  | .star body =>
    obtain ⟨q, hq, rfl⟩ := Except.map_eq_ok h
    simp only [language, language_substitute hf body q hq]
  | .plus body =>
    obtain ⟨q, hq, rfl⟩ := Except.map_eq_ok h
    simp only [language, language_substitute hf body q hq]
  | .opt body =>
    obtain ⟨q, hq, rfl⟩ := Except.map_eq_ok h
    simp only [language, language_substitute hf body q hq]
  | .rep body min max =>
    obtain ⟨q, hq, rfl⟩ := Except.map_eq_ok h
    simp only [language, language_substitute hf body q hq]
  | .ref name => exact hf name q h

theorem languages_substituteAll
    (hf : ∀ name q, f name = .ok q → env name = q.language ignoreCase env')
    (ps qs : List Pattern) (h : Pattern.substituteAll f ps = .ok qs) :
    sequenceLanguage ignoreCase env ps = sequenceLanguage ignoreCase env' qs ∧
      choiceLanguage ignoreCase env ps = choiceLanguage ignoreCase env' qs := by
  match ps with
  | [] =>
    obtain rfl := Except.ok.inj h
    exact ⟨rfl, rfl⟩
  | p :: ps =>
    rw [Pattern.substituteAll] at h
    split at h
    · cases h
    · next q hq =>
      obtain ⟨qs, hqs, rfl⟩ := Except.map_eq_ok h
      obtain ⟨hsequence, hchoice⟩ := languages_substituteAll hf ps qs hqs
      have hfirst := language_substitute hf p q hq
      exact ⟨by simp only [sequenceLanguage, hfirst, hsequence],
        by simp only [choiceLanguage, hfirst, hchoice]⟩

end

end

end Pattern

namespace Grammar

variable {g : Grammar} {ignoreCase : Bool}

def referredPattern (g : Grammar) (name : String) : Option Pattern :=
  (g.tokenKind? name).map g.patternOf

def Faultless (g : Grammar) : Prop := ∀ kind ≠ eofKind, (g.patternOf kind).fault? = none

theorem tokenKind?_of_referent? {name : String} {kind : Nat} (h : g.referent? name = some kind) :
    g.tokenKind? name = some kind ∧ kind ≠ eofKind := by
  rw [referent?] at h
  split at h
  · next k hk =>
    split at h
    · cases h
    · next hne =>
      obtain rfl := Option.some.inj h
      exact ⟨hk, hne⟩
  · cases h

theorem spells_ref_iff {name : String} {kind : Nat} (h : g.tokenKind? name = some kind)
    {w : List Nat} :
    Spells g.referredPattern ignoreCase (.ref name) w ↔
      Spells g.referredPattern ignoreCase (g.patternOf kind) w := by
  have hp : g.referredPattern name = some (g.patternOf kind) := by
    rw [referredPattern, h, Option.map_some]
  constructor
  · intro hw
    cases hw with
    | ref hq hw =>
      rw [hp] at hq
      rwa [Option.some.inj hq]
  · exact .ref hp

theorem language_inlineName (hfaultless : g.Faultless) {fuel : Nat} {path : List Nat}
    {name : String} {q : Pattern}
    (h : g.inlineName fuel path name = .ok q) :
    refLanguage g.referredPattern ignoreCase name = Nfa.closedLanguage ignoreCase q := by
  -- the fuel runs out only in an error, so each step goes one reference deeper
  induction fuel generalizing path name q with
  | zero => cases h
  | succ fuel ih =>
    rw [inlineName] at h
    split at h
    · cases h
    · next kind hkind =>
      split at h
      · cases h
      · obtain ⟨hname, hne⟩ := tokenKind?_of_referent? hkind
        have hsubstitute := language_substitute (fun _ _ hq => ih hq) _ q h
        rw [Nfa.closedLanguage, ← hsubstitute]
        ext w
        rw [mem_language_iff _ _ _ (hfaultless kind hne)]
        exact spells_ref_iff hname

theorem mem_inlined_iff (hfaultless : g.Faultless) {t : TokenDef} (hfault : t.pattern.fault? = none)
    {q : Pattern}
    (h : g.inlined t = .ok q) {w : List Nat} :
    w ∈ Nfa.closedLanguage ignoreCase q ↔ Spells g.referredPattern ignoreCase t.pattern w := by
  rw [Nfa.closedLanguage,
    ← language_substitute (fun _ _ hq => language_inlineName hfaultless hq) _ q h]
  exact mem_language_iff _ _ _ hfault w

theorem fault?_of_usablePattern {t : TokenDef} {q : Pattern} (h : g.usablePattern t = .ok q) :
    t.pattern.fault? = none ∧ g.inlined t = .ok q := by
  rw [usablePattern] at h
  split at h
  · cases h
  · next hfault =>
    split at h
    · cases h
    · cases h
    · next p hp =>
      split at h
      · cases h
      · exact ⟨hfault, by rw [hp, Except.ok.inj h]⟩

theorem exists_usablePattern {lexer : Lexer} (h : g.buildLexer.1 = some lexer) {t : TokenDef}
    (ht : t ∈ g.tokens)
    (hne : t.kind ≠ eofKind) : ∃ q, g.usablePattern t = .ok q := by
  have hempty : (g.tokens.toList.filterMap g.definitionFault?).isEmpty = true := by
    rw [buildLexer] at h
    split at h
    · assumption
    · cases h
  have hnone : g.definitionFault? t = none :=
    List.filterMap_eq_nil_iff.1 (List.isEmpty_iff.1 hempty) t (Array.mem_toList_iff.2 ht)
  rw [definitionFault?, if_neg hne] at hnone
  cases hq : g.usablePattern t with
  | error d => simp [hq] at hnone
  | ok q => exact ⟨q, rfl⟩

theorem kind_eq {kind : Nat} {t : TokenDef} (h : g.tokens[kind]? = some t) : t.kind = kind :=
  g.tokens_numbered kind t h

theorem faultless_of_buildLexer {lexer : Lexer} (h : g.buildLexer.1 = some lexer) :
    g.Faultless := by
  intro kind hne
  rw [patternOf]
  cases ht : g.tokens[kind]? with
  | none => rfl
  | some t =>
    have hkind : t.kind ≠ eofKind := by rwa [kind_eq ht]
    obtain ⟨q, hq⟩ := exists_usablePattern h (Array.mem_of_getElem? ht) hkind
    exact (fault?_of_usablePattern hq).1

/-- The text `w` belongs to the definition of the kind, which is active in `state`. -/
def LexesAs (g : Grammar) (state : String) (w : List Char) (kind : Nat) : Prop :=
  kind ∈ g.activeTokens state ∧ ∃ t, g.tokens[kind]? = some t ∧
    Matches g.referredPattern (t.ignoreCase.getD g.options.ignoreCase) t.pattern w

/-- `r` is the length of the longest beginning of `input` that belongs to some active definition,
with the lowest kind of those that it belongs to. -/
def IsLongestMatch (g : Grammar) (state : String) (input : List Char)
    (r : Option (Nat × Nat)) : Prop :=
  match r with
  | some (n, kind) => n ≤ input.length ∧ g.LexesAs state (input.take n) kind ∧
      (∀ k, g.LexesAs state (input.take n) k → kind ≤ k) ∧
      ∀ m, n < m → m ≤ input.length → ∀ k, ¬ g.LexesAs state (input.take m) k
  | none => ∀ m ≤ input.length, ∀ k, ¬ g.LexesAs state (input.take m) k

def SpelledAs (g : Grammar) (state : String) (w : List Nat) (kind : Nat) : Prop :=
  kind ∈ g.activeTokens state ∧ ∃ t, g.tokens[kind]? = some t ∧
    Spells g.referredPattern (t.ignoreCase.getD g.options.ignoreCase) t.pattern w

theorem lexesAs_iff {state : String} {w : List Char} {kind : Nat} :
    g.LexesAs state w kind ↔ g.SpelledAs state (w.map Char.toNat) kind := by
  simp only [LexesAs, SpelledAs, matches_iff_spells]

theorem ne_eofKind_of_mem_activeTokens {state : String} {kind : Nat}
    (h : kind ∈ g.activeTokens state) :
    kind ≠ eofKind := by
  obtain ⟨t, ht, rfl⟩ := List.mem_map.1 h
  have hactive := (List.mem_filter.1 ht).2
  intro heof
  simp [TokenDef.isActiveIn, heof] at hactive

theorem exists_rule_iff {lexer : Lexer} (h : g.buildLexer.1 = some lexer) {state : String}
    {kind : Nat}
    {w : List Nat} :
    (∃ r ∈ g.rules state, r.kind = kind ∧ w ∈ Nfa.closedLanguage r.ignoreCase r.pattern) ↔
      g.SpelledAs state w kind := by
  have hfaultless := faultless_of_buildLexer h
  constructor
  · rintro ⟨r, hr, rfl, hw⟩
    obtain ⟨kind, hkind, heq⟩ := List.mem_filterMap.1 hr
    split at heq
    · cases heq
    · next t ht =>
      split at heq
      · next p hp =>
        obtain rfl := Option.some.inj heq
        obtain ⟨hfault, hinlined⟩ := fault?_of_usablePattern hp
        exact ⟨hkind, t, ht, (mem_inlined_iff hfaultless hfault hinlined).1 hw⟩
      · cases heq
  · rintro ⟨hkind, t, ht, hw⟩
    have hne : t.kind ≠ eofKind := by
      rw [kind_eq ht]
      exact ne_eofKind_of_mem_activeTokens hkind
    obtain ⟨p, hp⟩ := exists_usablePattern h (Array.mem_of_getElem? ht) hne
    obtain ⟨hfault, hinlined⟩ := fault?_of_usablePattern hp
    refine ⟨⟨kind, p, t.ignoreCase.getD g.options.ignoreCase⟩,
      List.mem_filterMap.2 ⟨kind, hkind, ?_⟩, rfl,
      (mem_inlined_iff hfaultless hfault hinlined).2 hw⟩
    simp only [ht, hp]

theorem verdict_buildAutomaton (g : Grammar) (state : String) (cs : List Nat) :
    (g.buildAutomaton state).1.dfa.verdict 0 cs =
      ((Nfa.ofRules (g.rules state)).kinds
        ((Nfa.ofRules (g.rules state)).runFrom
          (Nfa.ofRules (g.rules state)).startSet cs)).head? := by
  have hnfa := Nfa.wellFormed_ofRules (g.rules state)
  have hdfa := Nfa.wellFormed_determinize hnfa
  have hpruned := Dfa.verdict_prune hdfa (Nfa.size_determinize_pos _) cs
  rw [← Nfa.verdict_determinize_start hnfa, ← hpruned]
  simp only [buildAutomaton]
  split
  · exact Dfa.verdict_minimize (Dfa.wellFormed_prune hdfa) (Dfa.size_prune_pos _) cs
  · rfl

section

variable {lexer : Lexer} (h : g.buildLexer.1 = some lexer) {state : String}

include h

theorem verdict_eq_some_iff {w : List Char} {kind : Nat} :
    (g.buildAutomaton state).1.dfa.verdict 0 (w.map Char.toNat) = some kind ↔
      g.LexesAs state w kind ∧ ∀ k, g.LexesAs state w k → kind ≤ k := by
  rw [verdict_buildAutomaton, Ascending.head?_eq_some_iff (Nfa.pairwise_kinds _ _)]
  simp only [Nfa.mem_kinds_ofRules, exists_rule_iff h, lexesAs_iff]

theorem verdict_eq_none_iff {w : List Char} :
    (g.buildAutomaton state).1.dfa.verdict 0 (w.map Char.toNat) = none ↔
      ∀ k, ¬ g.LexesAs state w k := by
  rw [verdict_buildAutomaton, List.head?_eq_none_iff, List.eq_nil_iff_forall_not_mem]
  simp only [Nfa.mem_kinds_ofRules, exists_rule_iff h, lexesAs_iff]

theorem longest_iff {input : List Char} {r : Option (Nat × Nat)} :
    Dfa.Longest (fun n => (g.buildAutomaton state).1.dfa.verdict 0 ((input.map Char.toNat).take n))
      input.length r ↔
      g.IsLongestMatch state input r := by
  cases r with
  | none => simp only [Dfa.Longest, IsLongestMatch, ← List.map_take, verdict_eq_none_iff h]
  | some p =>
    simp only [Dfa.Longest, IsLongestMatch, ← List.map_take, verdict_eq_none_iff h,
      verdict_eq_some_iff h, and_assoc]

end

/-- In every lexical state of a lexer the automaton finds the longest beginning of the input that
belongs to an active definition, and the lowest kind that it belongs to, whether it was minimized or
not. -/
theorem longestMatch_buildLexer {g : Grammar} {lexer : Lexer}
    (h : g.buildLexer.1 = some lexer) {s : Nat}
    {state : String} (hs : g.states.name? s = some state) :
    ∃ a, lexer.automata[s]? = some a ∧ a.name = state ∧
      ∀ (input : List Char) (r : Option (Nat × Nat)),
      a.dfa.longestMatch (input.map Char.toNat) = r ↔ g.IsLongestMatch state input r := by
  have hautomata : lexer.automata = g.states.names.map fun name => (g.buildAutomaton name).1 := by
    rw [buildLexer] at h
    split at h
    · rw [← Option.some.inj h, List.map_map]
      rfl
    · cases h
  refine ⟨(g.buildAutomaton state).1, ?_, rfl, fun input r => ?_⟩
  · rw [hautomata, List.getElem?_map]
    exact congrArg (Option.map _) hs
  · have hlongest := Dfa.longest_longestMatch (g.buildAutomaton state).1.dfa (input.map Char.toNat)
    rw [List.length_map] at hlongest
    rw [← longest_iff h]
    exact ⟨fun heq => heq ▸ hlongest, hlongest.unique⟩

def wordGrammar : Grammar :=
  let token (name : String) (kind : Nat) (pattern : Pattern) : TokenDef :=
    { TokenDef.eof with name := name, kind := kind, pattern := pattern, scope := .initial }
  { empty {} with
    tokens := #[.eof, token "If" 1 (.literal "if"), token "Word" 2 (.plus (.ref "Letter")),
      { token "Letter" 3 (.charClass ⟨[.range 'a' 'z'], false⟩) with isPrivate := true }]
    tokenNames := ⟨["EOF", "If", "Word", "Letter"]⟩
    states := ⟨["DEFAULT"]⟩
    stateSpans := [.none]
    tokens_numbered := ((((Numbered.empty TokenDef.kind).push rfl).push rfl).push rfl).push rfl }

theorem longestMatch_wordGrammar :
    wordGrammar.buildLexer.1.isSome ∧
      wordGrammar.IsLongestMatch "DEFAULT" "iffy(".toList (some (4, 2)) ∧
      wordGrammar.IsLongestMatch "DEFAULT" "if(".toList (some (2, 1)) := by
  have hsome : wordGrammar.buildLexer.1.isSome := by decide +kernel
  obtain ⟨lexer, hlexer⟩ := Option.isSome_iff_exists.1 hsome
  have hstate : wordGrammar.states.name? 0 = some "DEFAULT" := rfl
  obtain ⟨a, ha, -, hmatch⟩ := longestMatch_buildLexer hlexer hstate
  have hruns : (wordGrammar.buildLexer.1.bind fun l => l.automata[0]?).map (fun a =>
      (a.dfa.longestMatch ("iffy(".toList.map Char.toNat),
        a.dfa.longestMatch ("if(".toList.map Char.toNat))) =
      some (some (4, 2), some (2, 1)) := by decide +kernel
  rw [hlexer, Option.bind_some, ha, Option.map_some, Option.some.injEq, Prod.mk.injEq] at hruns
  exact ⟨hsome, (hmatch _ _).1 hruns.1, (hmatch _ _).1 hruns.2⟩

end Grammar
end PredictiveParsing
