import PredictiveParsing.Compilation
import PredictiveParsing.Proofs.SortedReports

/-!
# What a compilation leaves

A compilation stops after the first stage that reports an error. Building a lexer fails exactly if
it reports one, since each definition that has no usable pattern is reported as an error and all
else is a warning. Planning reports an error only for a conflict, and only where the options make
conflicts errors. So the stage that a compilation stopped after tells what it has computed. Main
statement: `agreesWithStage_compile`.
-/
namespace PredictiveParsing

open Diagnostic

namespace Grammar

variable {g : Grammar} {d : Diagnostic}

theorem severity_of_usablePattern {t : TokenDef} (h : g.usablePattern t = .error d) :
    d.severity = .error := by
  unfold usablePattern at h
  split at h
  · cases h; rfl
  · split at h
    · cases h; rfl
    · cases h; rfl
    · split at h
      · cases h; rfl
      · cases h

theorem severity_of_definitionFault? {t : TokenDef} (h : g.definitionFault? t = some d) :
    d.severity = .error := by
  unfold definitionFault? at h
  split at h
  · cases h
  · split at h
    · next hfault =>
      obtain rfl := Option.some.inj h
      exact severity_of_usablePattern hfault
    · cases h

theorem severity_of_mem_checkStateReachability (h : d ∈ g.checkStateReachability) :
    d.severity = .warning := by
  obtain ⟨⟨name, s⟩, -, h⟩ := List.mem_filterMap.1 h
  simp only at h
  split at h
  · cases h
  · obtain rfl := Option.some.inj h
    rfl

theorem severity_of_mem_buildAutomaton {state : String} (h : d ∈ (g.buildAutomaton state).2) :
    d.severity = .warning := by
  obtain ⟨kind, -, rfl⟩ := List.mem_map.1 h
  rfl

theorem anyError_buildLexer (g : Grammar) : anyError g.buildLexer.2 = g.buildLexer.1.isNone := by
  rw [buildLexer]
  split
  · rw [Option.isNone_some, ← Bool.not_eq_true, anyError_iff]
    rintro ⟨d, hd, herror⟩
    have hwarning : d.severity = .warning := by
      rcases List.mem_append.1 hd with hd | hd
      · exact severity_of_mem_checkStateReachability hd
      · obtain ⟨built, hbuilt, hd⟩ := List.mem_flatMap.1 hd
        obtain ⟨state, -, rfl⟩ := List.mem_map.1 hbuilt
        exact severity_of_mem_buildAutomaton hd
    rw [hwarning] at herror
    cases herror
  · next hfaults =>
    rw [Option.isNone_none, anyError_iff]
    obtain ⟨d, hd⟩ := List.exists_mem_of_ne_nil _ fun h => hfaults (List.isEmpty_iff.2 h)
    obtain ⟨t, -, ht⟩ := List.mem_filterMap.1 hd
    exact ⟨d, List.mem_append_left _ hd, severity_of_definitionFault? ht⟩

theorem map_name_buildLexer {lexer : Lexer} (h : g.buildLexer.1 = some lexer) :
    lexer.automata.map LexicalAutomaton.name = g.states.names := by
  rw [buildLexer] at h
  split at h
  · obtain rfl := Option.some.inj h
    simp [buildAutomaton, Function.comp_def]
  · cases h

end Grammar

namespace ChoiceSearch

theorem expansion_initial (g : Grammar) (s : GrammarSets) (choice : Nat) (way : Option Nat) :
    (Alternative.initial g s choice way).expansion = way := by
  rw [Alternative.initial]
  cases way with
  | none => rfl
  | some alt =>
    rw [Option.bind_some]
    cases g.statedLookahead? alt with
    | none => rfl
    | some la =>
      simp only [Option.map_some, Alternative.ofStated]
      split <;> rfl

theorem map_expansion_grow (s : GrammarSets) (k : Nat) (c : ChoiceSearch) :
    (c.grow s k).alternatives.map Alternative.expansion =
      c.alternatives.map Alternative.expansion := by
  apply List.ext_getElem?
  intro i
  rw [grow, List.getElem?_map, List.getElem?_mapIdx, List.getElem?_map]
  cases c.alternatives[i]? with
  | none => rfl
  | some a =>
    simp only [Option.map_some]
    split <;> rfl

theorem map_expansion_run (s : GrammarSets) (left k : Nat) (c : ChoiceSearch) :
    (c.run s left k).2.alternatives.map Alternative.expansion =
      c.alternatives.map Alternative.expansion := by
  induction left generalizing k c with
  | zero => rfl
  | succ left ih =>
    rw [run]
    split
    · rw [ih, map_expansion_grow]
    · rfl

end ChoiceSearch

namespace Grammar

variable {g : Grammar} {s : GrammarSets} {d : Diagnostic}

theorem map_expansion_planChoice (g : Grammar) (s : GrammarSets) (choice : Nat) :
    (g.planChoice s choice).1.alternatives.map Alternative.expansion = (g.kindOf choice).ways := by
  refine (ChoiceSearch.map_expansion_run s _ 1 (.start g s choice)).trans ?_
  rw [ChoiceSearch.start, List.map_map]
  simp [Function.comp_def, ChoiceSearch.expansion_initial]

theorem conflict_of_mem_planReports {choice k : Nat} {p : Plan} (h : d ∈ g.planReports choice p k)
    (herror : d.severity = .error) :
    g.options.conflictPolicy = .error ∧ p.hasConflict = true := by
  rcases List.mem_append.1 h with h | h
  · split at h
    · next houtcome =>
      obtain rfl := List.mem_singleton.1 h
      simp only [conflictReport] at herror
      split at herror
      · cases herror
      · next hpolicy => exact ⟨hpolicy, by simp [Plan.hasConflict, houtcome]⟩
    · cases h
  · split at h
    · obtain rfl := List.mem_singleton.1 h
      cases herror
    · cases h

theorem conflict_of_mem_planChoices (h : d ∈ (g.planChoices s).2) (herror : d.severity = .error) :
    g.options.conflictPolicy = .error ∧
      ∃ (id : Nat) (p : Plan), (g.planChoices s).1[id]?.join = some p ∧ p.hasConflict = true := by
  obtain ⟨planned, hplanned, hd⟩ := List.mem_flatMap.1 h
  obtain ⟨id, hid, rfl⟩ := List.mem_map.1 hplanned
  have hlt : id < g.nodes.size := List.mem_range.1 hid
  split at hd
  · next hchoice =>
    obtain ⟨hpolicy, hconflict⟩ := conflict_of_mem_planReports hd herror
    refine ⟨hpolicy, id, _, ?_, hconflict⟩
    rw [getElem?_planChoices s hlt, if_pos hchoice]
    rfl
  · cases hd

end Grammar

/-- The stage stands for an error among the reports, which the sorted list shows as well. -/
theorem Compilation.isSome_iff_exists_error {ds : List Diagnostic} {stage : Option Stage}
    (h : stage.isSome = anyError ds) : (ofDiagnostics ds stage).stoppedAfter.isSome ↔
      ∃ d ∈ (ofDiagnostics ds stage).diagnostics, d.severity = .error := by
  have hmem (d : Diagnostic) : d ∈ sorted ds ↔ d ∈ ds := (sorted_perm ds).mem_iff
  simp only [ofDiagnostics, hmem, h, anyError_iff]

namespace AnalyzedGrammar

/-- A plan for each choice point, in the place of its node: for a choice one alternative for each
child, and for what may be repeated or left out its body and then the exit. -/
structure Planned (a : AnalyzedGrammar) : Prop where
  slots : a.plans.length = a.grammar.nodes.size
  choicePoints : ∀ id, (a.plan? id).isSome ↔ (a.grammar.kindOf id).isChoicePoint
  choice : ∀ id p items, a.plan? id = some p → a.grammar.kindOf id = .choice items →
    p.alternatives.map Alternative.expansion = items.map some
  body : ∀ id p body, a.plan? id = some p →
    a.grammar.kindOf id = .zeroOrMore body ∨ a.grammar.kindOf id = .oneOrMore body ∨
      a.grammar.kindOf id = .zeroOrOne body →
    p.alternatives.map Alternative.expansion = [some body, none]

def Unplanned (a : AnalyzedGrammar) : Prop := a.plans = List.replicate a.grammar.nodes.size none

/-- What is there after a compilation is what the stage says that it stopped after, and it stopped
where and only where there is an error on record. -/
structure AgreesWithStage (a : AnalyzedGrammar) (c : Compilation) : Prop where
  stopped : c.stoppedAfter.isSome ↔ ∃ d ∈ c.diagnostics, d.severity = .error
  early : c.stoppedAfter = some .validation ∨ c.stoppedAfter = some .lexer →
    a.lexer = none ∧ a.sets = none ∧ a.Unplanned
  sets : c.stoppedAfter = some .sets → a.lexer.isSome ∧ a.sets.isSome ∧ a.Unplanned
  complete : c.stoppedAfter = some .lookahead ∨ c.stoppedAfter = none →
    (∃ lexer, a.lexer = some lexer ∧
      lexer.automata.map LexicalAutomaton.name = a.grammar.states.names) ∧
    a.sets.isSome ∧ a.Planned
  lookahead : c.stoppedAfter = some .lookahead →
    a.grammar.options.conflictPolicy = .error ∧ ∃ id p, a.plan? id = some p ∧ p.hasConflict = true

theorem AgreesWithStage.of_early (v : Grammar) {ds : List Diagnostic} {stage : Stage}
    (hstage : stage = .validation ∨ stage = .lexer) (herror : anyError ds = true) :
    AgreesWithStage (.ofGrammar v) (.ofDiagnostics ds (some stage)) where
  stopped := Compilation.isSome_iff_exists_error herror.symm
  early := fun _ => ⟨rfl, rfl, rfl⟩
  sets := by rcases hstage with rfl | rfl <;> simp [Compilation.ofDiagnostics]
  complete := by rcases hstage with rfl | rfl <;> simp [Compilation.ofDiagnostics]
  lookahead := by rcases hstage with rfl | rfl <;> simp [Compilation.ofDiagnostics]

end AnalyzedGrammar

namespace Grammar

variable {g : Grammar}

theorem planned_planChoices (g : Grammar) (lexer : Option Lexer) (sets : Option GrammarSets)
    (s : GrammarSets) : AnalyzedGrammar.Planned ⟨g, lexer, sets, (g.planChoices s).1⟩ := by
  have hslot (id : Nat) : (g.planChoices s).1[id]?.join =
      if (g.kindOf id).isChoicePoint then some (g.planChoice s id).1 else none := by
    by_cases hid : id < g.nodes.size
    · rw [getElem?_planChoices s hid]
      rfl
    · have hkind : g.kindOf id = .sequence [] := by simp [kindOf, hid]
      have hle : (g.planChoices s).1.length ≤ id := by simpa using hid
      rw [List.getElem?_eq_none hle, hkind]
      rfl
  have hplan (id : Nat) (p : Plan) (h : (g.planChoices s).1[id]?.join = some p) :
      p.alternatives.map Alternative.expansion = (g.kindOf id).ways := by
    rw [hslot] at h
    split at h
    · obtain rfl := Option.some.inj h
      exact g.map_expansion_planChoice s id
    · cases h
  refine ⟨g.length_planChoices s, fun id => ?_, fun id p items h hkind => ?_,
    fun id p body h hkind => ?_⟩
  · rw [AnalyzedGrammar.plan?, hslot]
    split <;> simp [*]
  · simp only [hplan id p h, hkind, Node.Kind.ways]
  · rw [hplan id p h]
    rcases hkind with hkind | hkind | hkind <;> rw [hkind] <;> rfl

/-- The ends that a compilation can come to. The parts are named for what they report: `ds` comes
from validation, `found` from the lexer, `more` from the sets and `last` from the plans. -/
inductive Compiled (g : Grammar) : AnalyzedGrammar × Compilation → Prop
  | invalid {v : Grammar} {ds : List Diagnostic} (hv : g.validate = (v, ds))
      (herror : anyError ds = true) :
      Compiled g (.ofGrammar v, .ofDiagnostics ds (some .validation))
  | unlexed {v : Grammar} {ds found : List Diagnostic} (hv : g.validate = (v, ds))
      (hlexer : v.buildLexer = (none, found)) :
      Compiled g (.ofGrammar v, .ofDiagnostics (ds ++ found) (some .lexer))
  | unplanned {v : Grammar} {ds found more : List Diagnostic} {lexer : Lexer} {sets : GrammarSets}
      (hv : g.validate = (v, ds)) (hlexer : v.buildLexer = (some lexer, found))
      (hsets : v.computeSets = (sets, more)) (herror : anyError (ds ++ found ++ more) = true) :
      Compiled g ({ AnalyzedGrammar.ofGrammar v with lexer := some lexer, sets := some sets },
        .ofDiagnostics (ds ++ found ++ more) (some .sets))
  | planned {v : Grammar} {ds found more last : List Diagnostic} {lexer : Lexer}
      {sets : GrammarSets} {plans : List (Option Plan)} (hv : g.validate = (v, ds))
      (hlexer : v.buildLexer = (some lexer, found)) (hsets : v.computeSets = (sets, more))
      (hplans : v.planChoices sets = (plans, last))
      (hclean : anyError (ds ++ found ++ more) = false) :
      Compiled g (⟨v, some lexer, some sets, plans⟩,
        .ofDiagnostics (ds ++ found ++ more ++ last)
          (if anyError (ds ++ found ++ more ++ last) then some .lookahead else none))

theorem compiled_compile (g : Grammar) : g.Compiled g.compile := by
  rcases hv : g.validate with ⟨v, ds⟩
  rw [compile]
  simp only [hv]
  by_cases hinvalid : anyError ds = true
  · rw [if_pos hinvalid]
    exact .invalid hv hinvalid
  · rw [if_neg hinvalid]
    have hfound := anyError_buildLexer v
    rcases hlexer : v.buildLexer with ⟨lexer, found⟩
    rw [hlexer] at hfound
    cases lexer with
    | none =>
      rw [if_pos (by rfl)]
      exact .unlexed hv hlexer
    | some lexer =>
      have hclean : ¬ (Option.isNone (some lexer) || anyError (ds ++ found)) = true := by
        have happend : anyError (ds ++ found) = (anyError ds || anyError found) := List.any_append
        simp [happend, hinvalid, hfound]
      rw [if_neg hclean]
      rcases hsets : v.computeSets with ⟨sets, more⟩
      simp only
      by_cases herror : anyError (ds ++ found ++ more) = true
      · rw [if_pos herror]
        exact .unplanned hv hlexer hsets herror
      · rw [if_neg herror]
        exact .planned hv hlexer hsets rfl (Bool.not_eq_true _ ▸ herror)

theorem agreesWithStage_planned {ds last : List Diagnostic} {lexer : Lexer}
    {found : List Diagnostic} {sets : GrammarSets} {plans : List (Option Plan)}
    (hlexer : g.buildLexer = (some lexer, found)) (hplans : g.planChoices sets = (plans, last))
    (hclean : anyError ds = false) :
    AnalyzedGrammar.AgreesWithStage ⟨g, some lexer, some sets, plans⟩
      (.ofDiagnostics (ds ++ last) (if anyError (ds ++ last) then some .lookahead else none)) := by
  have hnames : lexer.automata.map LexicalAutomaton.name = g.states.names :=
    map_name_buildLexer (by rw [hlexer])
  have hplanned := g.planned_planChoices (some lexer) (some sets) sets
  rw [hplans] at hplanned
  -- what was reported before the plans is no error, so an error is a conflict
  have hlast (h : anyError (ds ++ last) = true) : g.options.conflictPolicy = .error ∧
      ∃ (id : Nat) (p : Plan), plans[id]?.join = some p ∧ p.hasConflict = true := by
    rw [anyError, List.any_append, ← anyError, hclean, Bool.false_or] at h
    obtain ⟨d, hd, herror⟩ := anyError_iff.1 h
    have hconflict := conflict_of_mem_planChoices (g := g) (s := sets) (d := d)
    rw [hplans] at hconflict
    exact hconflict hd herror
  exact {
    stopped := Compilation.isSome_iff_exists_error (by cases anyError _ <;> rfl)
    early := by simp only [Compilation.ofDiagnostics]; split <;> simp
    sets := by simp only [Compilation.ofDiagnostics]; split <;> simp
    complete := fun _ => ⟨⟨lexer, rfl, hnames⟩, rfl, hplanned⟩
    lookahead := by
      intro h
      simp only [Compilation.ofDiagnostics] at h
      split at h
      · next herror => exact hlast herror
      · cases h }

theorem agreesWithStage_compile (g : Grammar) :
    AnalyzedGrammar.AgreesWithStage g.compile.1 g.compile.2 := by
  have hcompiled := g.compiled_compile
  generalize g.compile = r at hcompiled ⊢
  cases hcompiled with
  | invalid hv herror => exact .of_early _ (.inl rfl) herror
  | @unlexed v ds found hv hlexer =>
    have hfound : anyError found = true := by simpa [hlexer] using anyError_buildLexer v
    refine .of_early _ (.inr rfl) ?_
    rw [anyError, List.any_append]
    exact Bool.or_eq_true_iff.2 (.inr hfound)
  | unplanned hv hlexer hsets herror =>
    exact {
      stopped := Compilation.isSome_iff_exists_error herror.symm
      early := by simp [Compilation.ofDiagnostics]
      sets := fun _ => ⟨rfl, rfl, rfl⟩
      complete := by simp [Compilation.ofDiagnostics]
      lookahead := by simp [Compilation.ofDiagnostics] }
  | planned hv hlexer hsets hplans hclean =>
    exact agreesWithStage_planned hlexer hplans hclean

def optionalItem : Grammar :=
  ofDeclarations {} [.production "item" none .none (.opt (.literal "x"))]

/-- Both ways of reading an item begin with the same token, and that is an error here. -/
def doubtfulItem : Grammar :=
  ofDeclarations { conflictPolicy := .error }
    [.production "item" none .none (.choice [.literal "x", .literal "x"])]

/-- One compilation runs to its end, and another one stops after it has made its plans. -/
theorem agreesWithStage_items :
    (optionalItem.compile.2.stoppedAfter = none ∧
      (∀ d ∈ optionalItem.compile.2.diagnostics, d.severity ≠ .error) ∧
      (∃ lexer, optionalItem.compile.1.lexer = some lexer ∧
        lexer.automata.map LexicalAutomaton.name = ["DEFAULT"]) ∧
      optionalItem.compile.1.sets.isSome ∧
      ∃ p, optionalItem.compile.1.plan? 1 = some p ∧
        p.alternatives.map Alternative.expansion = [some 0, none]) ∧
    doubtfulItem.compile.2.stoppedAfter = some .lookahead ∧
      (∃ d ∈ doubtfulItem.compile.2.diagnostics, d.severity = .error) ∧
      (∃ lexer, doubtfulItem.compile.1.lexer = some lexer) ∧
      doubtfulItem.compile.1.sets.isSome ∧
      ∃ id p, doubtfulItem.compile.1.plan? id = some p ∧ p.hasConflict = true := by
  have hended := optionalItem.agreesWithStage_compile
  have hstopped := doubtfulItem.agreesWithStage_compile
  have hnone : optionalItem.compile.2.stoppedAfter = none := by decide +kernel
  have hlookahead : doubtfulItem.compile.2.stoppedAfter = some .lookahead := by decide +kernel
  have hstates : optionalItem.compile.1.grammar.states.names = ["DEFAULT"] := by decide +kernel
  have hkind : optionalItem.compile.1.grammar.kindOf 1 = .zeroOrOne 0 := by decide +kernel
  constructor
  · obtain ⟨⟨lexer, hlexer, hnames⟩, hsets, hplanned⟩ := hended.complete (.inr hnone)
    have hchoice : (optionalItem.compile.1.plan? 1).isSome := by
      rw [hplanned.choicePoints, hkind]
      rfl
    obtain ⟨p, hp⟩ := Option.isSome_iff_exists.1 hchoice
    refine ⟨hnone, fun d hd herror => ?_, ⟨lexer, hlexer, hnames.trans hstates⟩, hsets, p, hp,
      hplanned.body 1 p 0 hp (.inr (.inr hkind))⟩
    have hsome := hended.stopped.2 ⟨d, hd, herror⟩
    rw [hnone] at hsome
    cases hsome
  · obtain ⟨⟨lexer, hlexer, -⟩, hsets, -⟩ := hstopped.complete (.inl hlookahead)
    exact ⟨hlookahead, hstopped.stopped.1 (by rw [hlookahead]; rfl), ⟨lexer, hlexer⟩, hsets,
      (hstopped.lookahead hlookahead).2⟩

end Grammar
end PredictiveParsing
