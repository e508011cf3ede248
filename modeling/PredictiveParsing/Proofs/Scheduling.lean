import Mathlib.Algebra.GroupWithZero.Nat
import Mathlib.Logic.Relation
import PredictiveParsing.Lexer.Build
import PredictiveParsing.Lookahead.Search
import PredictiveParsing.Proofs.SortedReports

/-!
# The order of tasks never shows

The automata of the lexical states, and the plans of the choice points, may be computed by tasks that
run side by side and put their reports into one sink. Tasks read nothing that another one writes. So
each step of each of them keeps what all of them together will have reported, up to the order, and
the results in the order of the tasks. Main statement: `same_under_any_schedule`.
-/
namespace PredictiveParsing

inductive Task (α : Type)
  /-- It will put `reports` into the sink one by one, and then give its result. -/
  | running (reports : List Diagnostic) (result : α)
  | done (result : α)

namespace Task

variable {α : Type}

def result : Task α → α
  | running _ a => a
  | done a => a

def pending : Task α → List Diagnostic
  | running ds _ => ds
  | done _ => []

def stepsLeft : Task α → Nat
  | running ds _ => ds.length + 1
  | done _ => 0

end Task

structure Pool (α : Type) where
  tasks : List (Task α)
  sink : List Diagnostic

namespace Pool

variable {α : Type} {p q : Pool α} {results : List α} {ds : List Diagnostic}

def start (sink : List Diagnostic) (jobs : List (α × List Diagnostic)) : Pool α :=
  ⟨jobs.map fun (a, ds) => .running ds a, sink⟩

/-- Any task that is not done may go on: it puts its next report behind all that is in the sink, or
it has none left and is done. -/
inductive Step : Pool α → Pool α → Prop
  | report {before after : List (Task α)} {d : Diagnostic} {ds sink : List Diagnostic} {a : α} :
      Step ⟨before ++ .running (d :: ds) a :: after, sink⟩
        ⟨before ++ .running ds a :: after, sink ++ [d]⟩
  | finish {before after : List (Task α)} {sink : List Diagnostic} {a : α} :
      Step ⟨before ++ .running [] a :: after, sink⟩ ⟨before ++ .done a :: after, sink⟩

/-- Some schedule brings all tasks to their ends, with these results and this sink. -/
def Returns (p : Pool α) (results : List α) (sink : List Diagnostic) : Prop :=
  Relation.ReflTransGen Step p ⟨results.map .done, sink⟩

def outputs (p : Pool α) : List α := p.tasks.map Task.result

def reports (p : Pool α) : List Diagnostic := p.sink ++ p.tasks.flatMap Task.pending

def stepsLeft (p : Pool α) : Nat := (p.tasks.map Task.stepsLeft).sum

theorem Step.outputs_eq (h : Step p q) : q.outputs = p.outputs := by
  cases h <;> simp [outputs, Task.result]

theorem Step.reports_perm (h : Step p q) : q.reports.Perm p.reports := by
  cases h with
  | @report before after d ds sink a =>
    simp only [reports, List.flatMap_append, List.flatMap_cons, Task.pending, List.append_assoc,
      List.singleton_append]
    exact List.perm_middle.symm.append_left sink
  | finish => simp [reports, Task.pending]

theorem Step.stepsLeft_lt (h : Step p q) : q.stepsLeft < p.stepsLeft := by
  cases h <;> simp [Pool.stepsLeft, Task.stepsLeft]

theorem keeps_of_run (h : Relation.ReflTransGen Step p q) :
    q.outputs = p.outputs ∧ q.reports.Perm p.reports := by
  induction h with
  | refl => exact ⟨rfl, .refl _⟩
  | tail _ hstep ih => exact ⟨hstep.outputs_eq.trans ih.1, hstep.reports_perm.trans ih.2⟩

theorem Returns.eq_outputs (h : p.Returns results ds) : results = p.outputs := by
  have hkept := (keeps_of_run h).1
  simpa [outputs, Function.comp_def, Task.result] using hkept

theorem Returns.perm_reports (h : p.Returns results ds) : ds.Perm p.reports := by
  have hkept := (keeps_of_run h).2
  have hnone : (results.map Task.done).flatMap Task.pending = [] := by
    simp [List.flatMap_eq_nil_iff, Task.pending]
  rwa [reports, hnone, List.append_nil] at hkept

theorem exists_step_or_done (p : Pool α) :
    (∃ q, Step p q) ∨ p.tasks = p.outputs.map .done := by
  obtain ⟨tasks, sink⟩ := p
  by_cases h : ∃ ds a, Task.running ds a ∈ tasks
  · left
    obtain ⟨ds, a, hmem⟩ := h
    obtain ⟨before, after, rfl⟩ := List.append_of_mem hmem
    cases ds with
    | nil => exact ⟨_, .finish⟩
    | cons d ds => exact ⟨_, .report⟩
  · right
    have hdone (t : Task α) (ht : t ∈ tasks) : Task.done t.result = t := by
      cases t with
      | running ds a => exact absurd ⟨ds, a, ht⟩ h
      | done a => rfl
    rw [outputs, List.map_map]
    exact ((List.map_congr_left hdone).trans (List.map_id tasks)).symm

theorem exists_returns (p : Pool α) : ∃ ds, p.Returns p.outputs ds := by
  induction hn : p.stepsLeft using Nat.strongRecOn generalizing p with
  | ind n ih =>
    rcases p.exists_step_or_done with ⟨q, hstep⟩ | hdone
    · obtain ⟨ds, hreturns⟩ := ih q.stepsLeft (hn ▸ hstep.stepsLeft_lt) q rfl
      rw [hstep.outputs_eq] at hreturns
      exact ⟨ds, .head hstep hreturns⟩
    · refine ⟨p.sink, ?_⟩
      rw [Returns, ← hdone]

theorem outputs_start (sink : List Diagnostic) (jobs : List (α × List Diagnostic)) :
    (start sink jobs).outputs = jobs.map Prod.fst := by
  simp [outputs, start, Function.comp_def, Task.result]

theorem reports_start (sink : List Diagnostic) (jobs : List (α × List Diagnostic)) :
    (start sink jobs).reports = sink ++ jobs.flatMap Prod.snd := by
  simp [reports, start, List.flatMap_map, Task.pending]

end Pool

/-- What is shown of `ds` is all of `pushed`, sorted, each report as often as it was pushed, and the
same for every such list. -/
structure Shows (pushed ds : List Diagnostic) : Prop where
  alike : Diagnostic.sorted ds = Diagnostic.sorted pushed
  perm : (Diagnostic.sorted ds).Perm pushed
  increasing : (Diagnostic.sorted ds).Pairwise fun a b => (a.order b).isLE

theorem Shows.of_perm {pushed ds : List Diagnostic} (h : ds.Perm pushed) : Shows pushed ds :=
  ⟨Diagnostic.sorted_eq_of_perm h, (Diagnostic.sorted_perm ds).trans h,
    Diagnostic.pairwise_sorted ds⟩

namespace Grammar

variable {g : Grammar} {s : GrammarSets} {sink sink' ds : List Diagnostic}

/-- What building the lexer may return and leave in the sink, where each automaton is a task. -/
inductive BuildsLexer (g : Grammar) (sink : List Diagnostic) :
    Option Lexer → List Diagnostic → Prop
  | faulty (h : (g.tokens.toList.filterMap g.definitionFault?).isEmpty = false) :
      BuildsLexer g sink none
        (sink ++ (g.tokens.toList.filterMap g.definitionFault? ++ g.checkStateReachability))
  | built {automata : List LexicalAutomaton} {ds : List Diagnostic}
      (h : (g.tokens.toList.filterMap g.definitionFault?).isEmpty = true)
      (hreturns : (Pool.start (sink ++ g.checkStateReachability)
        (g.states.names.map g.buildAutomaton)).Returns automata ds) :
      BuildsLexer g sink (some {
        automata := automata
        dispositions := g.tokens.toList.map TokenDef.disposition
        nextStates := g.tokens.toList.map fun t => t.nextState.bind g.states.index? }) ds

def placedPlans (slots : List (Option Plan)) (plans : List (Nat × Plan)) : List (Option Plan) :=
  plans.foldl (fun slots (id, plan) => slots.set id (some plan)) slots

inductive PlansChoices (g : Grammar) (s : GrammarSets) (sink : List Diagnostic) :
    List (Option Plan) → List Diagnostic → Prop
  | planned {plans : List (Nat × Plan)} {ds : List Diagnostic}
      (hreturns : (Pool.start sink (g.choicePoints.map fun id =>
        ((id, (g.planChoice s id).1), (g.planChoice s id).2))).Returns plans ds) :
      PlansChoices g s sink (placedPlans (List.replicate g.nodes.size none) plans) ds

theorem getElem?_placedPlans (plan : Nat → Plan) (ids : List Nat) (slots : List (Option Plan))
    (j : Nat) : (placedPlans slots (ids.map fun id => (id, plan id)))[j]? =
      if j ∈ ids ∧ j < slots.length then some (some (plan j)) else slots[j]? := by
  induction ids generalizing slots with
  | nil => simp [placedPlans]
  | cons id ids ih =>
    have hrest := ih (slots.set id (some (plan id)))
    rw [placedPlans, List.map_cons, List.foldl_cons, ← placedPlans, hrest, List.length_set]
    grind

theorem placedPlans_choicePoints (g : Grammar) (s : GrammarSets) :
    placedPlans (List.replicate g.nodes.size none)
      (g.choicePoints.map fun id => (id, (g.planChoice s id).1)) = (g.planChoices s).1 := by
  apply List.ext_getElem?
  intro j
  rw [getElem?_placedPlans (fun id => (g.planChoice s id).1), List.length_replicate]
  by_cases hj : j < g.nodes.size
  · rw [getElem?_planChoices s hj]
    by_cases hchoice : (g.kindOf j).isChoicePoint = true
    · simp [choicePoints, nodeIds, hj, hchoice]
    · simp [choicePoints, hj, hchoice]
  · simp [hj]

theorem flatMap_choicePoints (g : Grammar) (s : GrammarSets) :
    (g.choicePoints.flatMap fun id => (g.planChoice s id).2) = (g.planChoices s).2 := by
  simp only [planChoices, choicePoints, List.flatMap_map]
  induction g.nodeIds with
  | nil => rfl
  | cons id ids ih =>
    rw [List.flatMap_cons, ← ih, List.filter_cons]
    split <;> rfl

theorem BuildsLexer.shows {lexer : Option Lexer} (hsink : sink'.Perm sink)
    (h : g.BuildsLexer sink' lexer ds) :
    lexer = g.buildLexer.1 ∧ Shows (sink ++ g.buildLexer.2) ds := by
  cases h with
  | faulty hfaults =>
    rw [buildLexer, if_neg (by simp [hfaults])]
    exact ⟨rfl, .of_perm (hsink.append_right _)⟩
  | built hfaults hreturns =>
    rw [buildLexer, if_pos hfaults]
    have hautomata := hreturns.eq_outputs
    have hreports := hreturns.perm_reports
    rw [Pool.outputs_start] at hautomata
    rw [Pool.reports_start, List.append_assoc] at hreports
    exact ⟨by rw [hautomata], .of_perm (hreports.trans (hsink.append_right _))⟩

theorem PlansChoices.shows {plans : List (Option Plan)} (hsink : sink'.Perm sink)
    (h : g.PlansChoices s sink' plans ds) :
    plans = (g.planChoices s).1 ∧ Shows (sink ++ (g.planChoices s).2) ds := by
  cases h with
  | planned hreturns =>
    have hplans := hreturns.eq_outputs
    have hreports := hreturns.perm_reports
    rw [Pool.outputs_start, List.map_map] at hplans
    rw [Pool.reports_start, List.flatMap_map, flatMap_choicePoints] at hreports
    rw [hplans]
    exact ⟨g.placedPlans_choicePoints s, .of_perm (hreports.trans (hsink.append_right _))⟩

theorem exists_buildsLexer (g : Grammar) (sink : List Diagnostic) :
    ∃ lexer ds, g.BuildsLexer sink lexer ds := by
  cases h : (g.tokens.toList.filterMap g.definitionFault?).isEmpty with
  | false => exact ⟨_, _, .faulty h⟩
  | true =>
    obtain ⟨ds, hreturns⟩ := Pool.exists_returns
      (Pool.start (sink ++ g.checkStateReachability) (g.states.names.map g.buildAutomaton))
    exact ⟨_, ds, .built h hreturns⟩

theorem exists_plansChoices (g : Grammar) (s : GrammarSets) (sink : List Diagnostic) :
    ∃ plans ds, g.PlansChoices s sink plans ds := by
  obtain ⟨ds, hreturns⟩ := Pool.exists_returns (Pool.start sink (g.choicePoints.map fun id =>
    ((id, (g.planChoice s id).1), (g.planChoice s id).2)))
  exact ⟨_, ds, .planned hreturns⟩

/-- Whatever the order of the tasks and of their reports, and of the reports that were in the sink
before, there is a result, it is the one that is computed without tasks, and the reports are shown as
they are then. -/
theorem same_under_any_schedule (g : Grammar) (s : GrammarSets) (sink : List Diagnostic) :
    (∃ lexer ds, g.BuildsLexer sink lexer ds) ∧
    (∀ sink' lexer ds, sink'.Perm sink → g.BuildsLexer sink' lexer ds →
      lexer = g.buildLexer.1 ∧ Shows (sink ++ g.buildLexer.2) ds) ∧
    (∃ plans ds, g.PlansChoices s sink plans ds) ∧
    ∀ sink' plans ds, sink'.Perm sink → g.PlansChoices s sink' plans ds →
      plans = (g.planChoices s).1 ∧ Shows (sink ++ (g.planChoices s).2) ds :=
  ⟨g.exists_buildsLexer sink, fun _ _ _ => BuildsLexer.shows, g.exists_plansChoices s sink,
    fun _ _ _ => PlansChoices.shows⟩

end Grammar
end PredictiveParsing
