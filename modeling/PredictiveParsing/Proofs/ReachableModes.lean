import PredictiveParsing.Proofs.ShadowedTokens
import PredictiveParsing.Proofs.TokenTable
import PredictiveParsing.Proofs.Tokenization

/-!
# Modes that a scan comes to

A scanner changes its mode only when a match is settled. What it matches in a mode some state of the
automaton of that mode accepts, so it is a definition that is active in the lexical state of that
number, and the mode it leads to is found when the lexical states are explored from the first one.
Main statement: `modes_reached`.
-/
namespace PredictiveParsing

open Relation Exploration

namespace ScanTable

theorem kindOf?_of_longestWithin? {t : ScanTable} {mode : Nat} {cs : List Char} {m kind n : Nat}
    (h : t.longestWithin? mode cs m = some (kind, n)) :
    t.kindOf? mode (cs.take n) = some kind := by
  induction m with
  | zero => cases h
  | succ m ih =>
    rw [longestWithin?] at h
    split at h
    · next k hk =>
      obtain ⟨rfl, rfl⟩ := Prod.mk.inj (Option.some.inj h)
      exact hk
    · exact ih h

end ScanTable

namespace Scanner

variable {s s' : Scanner} {kind : Nat} {lexeme : List Char}

inductive Moves : Scanner → Scanner → Prop
  | read {s s' : Scanner} {c : Char} (h : s.read? = some (c, s')) : Moves s s'
  | unread {s s' : Scanner} {c : Char} (h : s.unread1 c = .ok s') : Moves s s'
  | counted (s : Scanner) : Moves s s.counted
  | ended (s : Scanner) : Moves s { s with finished := true }

inductive Step : Scanner → Scanner → Prop
  | move {s s' : Scanner} (h : Moves s s') : Step s s'
  | settle {s s' : Scanner} {kind : Nat} {lexeme : List Char}
      (h : s.tryMatch = (s', .found kind lexeme)) : Step s (s'.settle kind lexeme).1

def Passes (table : ScanTable) (input : List Char) (s : Scanner) : Prop :=
  ReflTransGen Step (new table input) s

theorem Moves.keeps (h : Moves s s') : s'.table = s.table ∧ s'.mode = s.mode := by
  cases h with
  | read h =>
    have hmoved := MovedOver.of_read? h
    exact ⟨hmoved.table, hmoved.mode⟩
  | unread h =>
    rw [unread1] at h
    split at h
    · cases h
      exact ⟨rfl, rfl⟩
    · cases h
  | counted => exact ⟨rfl, rfl⟩
  | ended => exact ⟨rfl, rfl⟩

theorem keeps_of_moves (h : ReflTransGen Moves s s') : s'.table = s.table ∧ s'.mode = s.mode := by
  induction h with
  | refl => exact ⟨rfl, rfl⟩
  | tail _ hmove ih => exact ⟨hmove.keeps.1.trans ih.1, hmove.keeps.2.trans ih.2⟩

theorem moves_extend (fuel : Nat) (r : Run) :
    ReflTransGen Moves r.scanner (Run.extend fuel r).scanner := by
  induction fuel generalizing r with
  | zero => exact .refl
  | succ fuel ih =>
    rw [Run.extend]
    split
    · exact .refl
    · next c scanner hread =>
      dsimp only
      split
      · exact .single (.read hread)
      · exact .head (.read hread) (ih ⟨scanner, _, _, _⟩)

theorem moves_giveBack {n : Nat} {rest : List Char} (h : s.giveBack n lexeme = .ok (s', rest)) :
    ReflTransGen Moves s s' := by
  induction n generalizing s lexeme with
  | zero =>
    cases h
    exact .refl
  | succ n ih =>
    cases lexeme with
    | nil =>
      cases h
      exact .refl
    | cons c lexeme =>
      rw [giveBack] at h
      split at h
      · next hback => exact .head (.unread hback) (ih h)
      · cases h

theorem moves_tryMatch (s : Scanner) : ReflTransGen Moves s s.tryMatch.1 := by
  have hextend : ReflTransGen Moves s.counted s.counted.attempt.scanner :=
    moves_extend _ ⟨s.counted, _, _, _⟩
  have hattempt := hextend.head (.counted s)
  rw [tryMatch]
  split
  · exact hattempt
  · next hback => exact hattempt.trans (moves_giveBack hback)

theorem moves_finish (s : Scanner) : Moves s s.finish.1 := by
  rw [finish]
  dsimp only
  split
  · exact .ended s
  · exact .ended s

theorem steps_of_moves (h : ReflTransGen Moves s s') : ReflTransGen Step s s' :=
  ReflTransGen.mono (fun _ _ => Step.move) _ _ h

theorem steps_scanToken (fuel : Nat) (s : Scanner) :
    ReflTransGen Step s (scanToken fuel s).1 := by
  induction fuel generalizing s with
  | zero => exact .single (.move (moves_finish s))
  | succ fuel ih =>
    have hmatch := steps_of_moves (moves_tryMatch s)
    rw [scanToken]
    split
    · next heq =>
      rw [heq] at hmatch
      exact hmatch
    · next heq =>
      rw [heq] at hmatch
      exact hmatch.tail (.move (moves_finish _))
    · next heq =>
      have hsettle := Step.settle heq
      split
      · next hsettled =>
        rw [hsettled] at hsettle
        exact .single hsettle
      · next hsettled =>
        rw [hsettled] at hsettle
        exact .head hsettle (ih _)

theorem steps_tryNext (s : Scanner) : ReflTransGen Step s s.tryNext.1 := by
  have hscan := steps_scanToken (s.upcoming.length + 1) s
  rw [tryNext]
  split
  · exact .refl
  · split
    · next heq =>
      rw [heq] at hscan
      exact hscan
    · next heq =>
      rw [heq] at hscan
      exact hscan

theorem steps_next (s : Scanner) : ReflTransGen Step s s.next.1 := by
  have hnext := steps_tryNext s
  rw [next]
  split
  · next heq =>
    rw [heq] at hnext
    exact hnext
  · next heq =>
    rw [heq] at hnext
    exact hnext
  · next heq =>
    rw [heq] at hnext
    exact hnext.tail (.move (.ended _))

theorem kindOf?_of_found (h : s.tryMatch = (s', .found kind lexeme)) :
    ∃ cs, s.table.kindOf? s.mode cs = some kind := by
  have hbest : s.counted.attempt.best = s.table.longest? s.mode s.upcoming :=
    attempt_best s.counted
  rw [tryMatch] at h
  split at h
  · cases h
  · obtain ⟨-, houtcome⟩ := Prod.mk.inj h
    rw [Run.outcome] at houtcome
    split at houtcome
    · next k n hk =>
      obtain ⟨rfl, -⟩ := Match.found.inj houtcome
      exact ⟨_, ScanTable.kindOf?_of_longestWithin? (hbest.symm.trans hk)⟩
    · split at houtcome <;> cases houtcome

theorem Step.mode_cases (h : Step s s') : s'.table = s.table ∧
    (s'.mode = s.mode ∨ ∃ cs kind, s.table.kindOf? s.mode cs = some kind ∧
      s.table.nextMode? kind = some s'.mode) := by
  cases h with
  | move hmove => exact ⟨hmove.keeps.1, .inl hmove.keeps.2⟩
  | @settle matched kind lexeme hmatch =>
    have hmoves := moves_tryMatch s
    rw [hmatch] at hmoves
    obtain ⟨htable, hmode⟩ := keeps_of_moves hmoves
    have hsettle : (matched.settle kind lexeme).1.table = matched.table ∧
        (matched.settle kind lexeme).1.mode =
          (matched.table.nextMode? kind).getD matched.mode := by
      cases hd : matched.table.disposition kind <;> simp [Scanner.settle, hd]
    obtain ⟨cs, hcs⟩ := kindOf?_of_found hmatch
    refine ⟨hsettle.1.trans htable, ?_⟩
    rw [hsettle.2, htable, hmode]
    cases hnext : s.table.nextMode? kind with
    | none => exact .inl rfl
    | some mode => exact .inr ⟨cs, kind, hcs, hnext⟩

end Scanner

namespace Grammar

variable {g : Grammar} {lexer : Lexer} {mode kind : Nat} {state : String}

structure StateTable (g : Grammar) : Prop where
  nodup : g.states.names.Nodup
  nonempty : g.states.names ≠ []

theorem nodup_states_declare (h : g.states.names.Nodup) (d : Declaration) :
    (g.declare d).states.names.Nodup := by
  cases d with
  | state name span =>
    rw [declare, declareState, Symbols.add]
    cases hname : g.states.index? name with
    | some i => exact h
    | none => exact Symbols.nodup_push h hname
  | token decl =>
    have hstates : (g.declareToken decl).states = g.states := by
      rw [declareToken]
      split
      · rfl
      · dsimp only
        split <;> rfl
    rwa [declare, hstates]
  | production name resultType span body =>
    have hstates : (g.declareProduction name resultType span body).states = g.states := by
      rw [declareProduction]
      split
      · rfl
      · simp only [lower_eq, withNodes]
        exact (g.claimed_claimLiterals (body.literals span)).names_eq.1
    rwa [declare, hstates]

theorem nodup_states_foldl (h : g.states.names.Nodup) (ds : List Declaration) :
    (ds.foldl declare g).states.names.Nodup := by
  induction ds generalizing g with
  | nil => exact h
  | cons d ds ih => exact ih (nodup_states_declare h d)

theorem Built.stateTable (h : g.Built) : g.StateTable := by
  induction h with
  | declared options ds =>
    rw [ofDeclarations, finish]
    split
    · next hempty =>
      have hnil := List.isEmpty_iff.1 hempty
      exact ⟨by simp [Symbols.push, hnil], by simp [Symbols.push]⟩
    · next hfilled =>
      have hempty : (Grammar.empty options).states.names.Nodup := .nil
      exact ⟨nodup_states_foldl hempty ds, fun hnil => hfilled (List.isEmpty_iff.2 hnil)⟩
  | configured _ options ih => exact ⟨ih.nodup, ih.nonempty⟩
  | @validated g _ ih =>
    have hstates : g.validate.1.states = g.states :=
      (g.claimed_resolveNodes g.nodes.toList).names_eq.1
    exact ⟨hstates ▸ ih.nodup, hstates ▸ ih.nonempty⟩

theorem lexer_eq (h : g.buildLexer.1 = some lexer) : lexer = {
    automata := g.states.names.map fun name => (g.buildAutomaton name).1
    dispositions := g.tokens.toList.map TokenDef.disposition
    nextStates := g.tokens.toList.map fun t => t.nextState.bind g.states.index? } := by
  rw [buildLexer] at h
  split at h
  · rw [← Option.some.inj h, List.map_map]
    rfl
  · cases h

theorem accept?_lexer (h : g.buildLexer.1 = some lexer) (hmode : g.states.name? mode = some state)
    (q : Nat) : lexer.accept? mode q = (g.buildAutomaton state).1.dfa.accept? q := by
  have hstate : g.states.names[mode]? = some state := hmode
  rw [lexer_eq h, Lexer.accept?, List.getElem?_map, hstate]
  rfl

theorem mem_activeTokens_of_kindOf? (h : g.buildLexer.1 = some lexer)
    (hmode : g.states.name? mode = some state) {cs : List Char}
    (hcs : lexer.scanTable.kindOf? mode cs = some kind) : kind ∈ g.activeTokens state := by
  obtain ⟨q, -, haccept⟩ := Option.bind_eq_some_iff.1 hcs
  have haccepted : kind ∈ (g.buildAutomaton state).1.dfa.acceptedKinds :=
    Dfa.mem_acceptedKinds.2 ⟨q, (accept?_lexer h hmode q).symm.trans haccept⟩
  obtain ⟨w, hw⟩ := (Nfa.mem_acceptedKinds_pruned (Nfa.wellFormed_ofRules _) _).1 haccepted
  rw [Nfa.lowestKind?, Ascending.head?_eq_some_iff (Nfa.pairwise_kinds _ _),
    mem_kinds_iff_spelledAs h] at hw
  exact hw.1.1

theorem mem_nextStates_of_nextMode? (h : g.buildLexer.1 = some lexer)
    (hmode : g.states.name? mode = some state) (hkind : kind ∈ g.activeTokens state) {next : Nat}
    (hnext : lexer.nextMode? kind = some next) : next ∈ g.nextStates mode := by
  rw [lexer_eq h, Lexer.nextMode?, List.getElem?_map, Array.getElem?_toList] at hnext
  simp only [nextStates, hmode]
  refine List.mem_filterMap.2 ⟨kind, hkind, ?_⟩
  cases ht : g.tokens[kind]? with
  | none =>
    rw [ht] at hnext
    cases hnext
  | some t =>
    rw [ht] at hnext
    exact hnext

theorem lt_of_mem_nextStates {next : Nat} (h : next ∈ g.nextStates mode) :
    next < g.states.size := by
  rw [nextStates] at h
  split at h
  · cases h
  · obtain ⟨kind, -, hnext⟩ := List.mem_filterMap.1 h
    obtain ⟨name, -, hname⟩ := Option.bind_eq_some_iff.1 hnext
    exact Symbols.lt_of_index? hname

section

variable (htable : g.StateTable)

include htable

theorem encloses_nextStates : Encloses g.nextStates [0] (Finset.range g.states.size) := by
  refine ⟨fun r hr => ?_, fun _ _ next hnext => Finset.mem_range.2 (lt_of_mem_nextStates hnext)⟩
  rw [List.mem_singleton.1 hr, Finset.mem_range]
  exact List.length_pos_of_ne_nil htable.nonempty

theorem mem_reachedStates : mode ∈ g.reachedStates ↔ Reaches g.nextStates [0] mode := by
  have hfilled : ¬ g.states.isEmpty = true := fun hempty =>
    htable.nonempty (List.isEmpty_iff.1 hempty)
  rw [reachedStates, if_neg hfilled, mem_reachable (encloses_nextStates htable)]
  rw [Finset.card_range]

theorem exists_name_of_mem_reachedStates (hmode : mode ∈ g.reachedStates) :
    ∃ state, g.states.name? mode = some state := by
  have hlt := (encloses_nextStates htable).mem ((mem_reachedStates htable).1 hmode)
  exact ⟨_, List.getElem?_eq_getElem (Finset.mem_range.1 hlt)⟩

theorem step_reached (h : g.buildLexer.1 = some lexer) {s s' : Scanner} (hstep : s.Step s')
    (hs : s.table = lexer.scanTable ∧ s.mode ∈ g.reachedStates) :
    s'.table = lexer.scanTable ∧ s'.mode ∈ g.reachedStates := by
  obtain ⟨htable', hmode⟩ := hstep.mode_cases
  refine ⟨htable'.trans hs.1, ?_⟩
  rcases hmode with hmode | ⟨cs, kind, hcs, hnext⟩
  · rw [hmode]
    exact hs.2
  · obtain ⟨state, hstate⟩ := exists_name_of_mem_reachedStates htable hs.2
    rw [hs.1] at hcs hnext
    have hactive := mem_activeTokens_of_kindOf? h hstate hcs
    have hreaches := (mem_reachedStates htable).1 hs.2
    exact (mem_reachedStates htable).2
      (hreaches.step (mem_nextStates_of_nextMode? h hstate hactive hnext))

theorem passes_reached (h : g.buildLexer.1 = some lexer) {input : List Char} {s : Scanner}
    (hs : Scanner.Passes lexer.scanTable input s) :
    s.table = lexer.scanTable ∧ s.mode ∈ g.reachedStates := by
  induction hs with
  | refl => exact ⟨rfl, (mem_reachedStates htable).2 ⟨0, List.mem_singleton_self 0, .refl⟩⟩
  | tail _ hstep ih => exact step_reached htable h hstep ih

end

def unreachedReport (g : Grammar) (s : Nat) (name : String) : Diagnostic :=
  .ofKind .unreachableLexicalState (g.stateSpans[s]?.getD .none)
    s!"lexical state {name} cannot be reached from {g.initialState}"

theorem exists_unreached {d : Diagnostic} (h : d ∈ g.checkStateReachability) :
    ∃ m name, g.states.name? m = some name ∧ m ∉ g.reachedStates ∧
      d = g.unreachedReport m name := by
  obtain ⟨⟨name, m⟩, hmem, hreport⟩ := List.mem_filterMap.1 h
  simp only at hreport
  split at hreport
  · cases hreport
  · next hreached =>
    refine ⟨m, name, List.mem_zipIdx_iff_getElem?.1 hmem, ?_, (Option.some.inj hreport).symm⟩
    simpa using hreached

theorem exists_unreached_of_mem_buildLexer (h : g.buildLexer.1 = some lexer) {d : Diagnostic}
    (hd : d ∈ g.buildLexer.2) (hkind : d.kind = .unreachableLexicalState) :
    ∃ m name, g.states.name? m = some name ∧ m ∉ g.reachedStates ∧
      d = g.unreachedReport m name := by
  rw [reports_buildLexer h] at hd
  rcases List.mem_append.1 hd with hd | hd
  · exact exists_unreached hd
  · obtain ⟨state, -, hd⟩ := List.mem_flatMap.1 hd
    rw [kind_of_mem_buildAutomaton hd] at hkind
    cases hkind

theorem exists_public_of_mem_activeTokens (h : kind ∈ g.activeTokens state) :
    ∃ t, g.tokens[kind]? = some t ∧ t.isPrivate = false := by
  obtain ⟨t, ht, rfl⟩ := List.mem_map.1 h
  obtain ⟨hmem, hactive⟩ := List.mem_filter.1 ht
  exact ⟨t, getElem?_kind (Array.mem_toList_iff.1 hmem), isPrivate_of_isActiveIn hactive⟩

/-- Wherever a scan comes, the scanner is in a declared lexical state, no report says that it cannot
be reached, and what is matched there is a public definition that is active in it. -/
theorem modes_reached {g : Grammar} {lexer : Lexer} (hbuilt : g.Built)
    (h : g.buildLexer.1 = some lexer) {input : List Char} {s : Scanner}
    (hs : Scanner.Passes lexer.scanTable input s) :
    ∃ state, g.states.name? s.mode = some state ∧
      (∀ d ∈ g.buildLexer.2, d.kind = .unreachableLexicalState →
        ∃ m other, g.states.name? m = some other ∧ other ≠ state ∧ d = g.unreachedReport m other) ∧
      ∀ s' kind lexeme, s.tryMatch = (s', .found kind lexeme) →
        kind ∈ g.activeTokens state ∧ kind ≠ eofKind ∧
          ∃ t, g.tokens[kind]? = some t ∧ t.isPrivate = false := by
  have htable := hbuilt.stateTable
  obtain ⟨hlexer, hmode⟩ := passes_reached htable h hs
  obtain ⟨state, hstate⟩ := exists_name_of_mem_reachedStates htable hmode
  refine ⟨state, hstate, fun d hd hkind => ?_, fun s' kind lexeme hmatch => ?_⟩
  · obtain ⟨m, other, hother, hunreached, hreport⟩ :=
      exists_unreached_of_mem_buildLexer h hd hkind
    refine ⟨m, other, hother, ?_, hreport⟩
    rintro rfl
    have hsame := Symbols.index?_of_getElem? htable.nodup hother
    rw [Symbols.index?_of_getElem? htable.nodup hstate] at hsame
    rw [Option.some.inj hsame] at hmode
    exact hunreached hmode
  · obtain ⟨cs, hcs⟩ := Scanner.kindOf?_of_found hmatch
    rw [hlexer] at hcs
    have hactive := mem_activeTokens_of_kindOf? h hstate hcs
    exact ⟨hactive, ne_eofKind_of_mem_activeTokens hactive,
      exists_public_of_mem_activeTokens hactive⟩

/-- A quote leads to the state of strings and back; nothing leads to the third state. -/
def stringMode : Grammar :=
  ofDeclarations {}
    [.state "DEFAULT" .none, .state "STRING" .none, .state "ORPHAN" .none,
      .token { name := "Word", pattern := .plus (.charClass ⟨[.range 'a' 'z'], false⟩) },
      .token { name := "Open", pattern := .literal "'", nextState := some "STRING" },
      .token { name := "Text", pattern := .literal "x", scope := .only ["STRING", "ORPHAN"] },
      .token {
        name := "Close", pattern := .literal "'", scope := .only ["STRING"]
        nextState := some "DEFAULT" }]

theorem modes_reached_stringMode :
    (∃ d ∈ stringMode.buildLexer.2, d.kind = .unreachableLexicalState) ∧
      ∃ lexer s, stringMode.buildLexer.1 = some lexer ∧
        Scanner.Passes lexer.scanTable "ab'x'".toList s ∧ s.mode = 1 ∧
        ∀ d ∈ stringMode.buildLexer.2, d.kind = .unreachableLexicalState →
          ∃ m other, stringMode.states.name? m = some other ∧ other ≠ "STRING" ∧
            d = stringMode.unreachedReport m other := by
  have hbuilt : stringMode.Built := .declared _ _
  have hsome : stringMode.buildLexer.1.isSome := by decide +kernel
  obtain ⟨lexer, hlexer⟩ := Option.isSome_iff_exists.1 hsome
  have hpasses := (Scanner.steps_next (.new lexer.scanTable "ab'x'".toList)).trans
    (Scanner.steps_next _)
  have hmode : stringMode.buildLexer.1.map (fun lexer =>
      (Scanner.new lexer.scanTable "ab'x'".toList).next.1.next.1.mode) = some 1 := by
    decide +kernel
  rw [hlexer, Option.map_some, Option.some.injEq] at hmode
  obtain ⟨state, hstate, hreports, -⟩ := modes_reached hbuilt hlexer hpasses
  have hname : stringMode.states.name? 1 = some "STRING" := by decide +kernel
  rw [hmode, hname] at hstate
  obtain rfl := Option.some.inj hstate
  exact ⟨by decide +kernel, lexer, _, hlexer, hpasses, hmode, hreports⟩

end Grammar
end PredictiveParsing
