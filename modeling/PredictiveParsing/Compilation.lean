import PredictiveParsing.Grammar.Validation
import PredictiveParsing.Lexer.Build
import PredictiveParsing.Lookahead.Search

/-!
# Compilation

A grammar is validated, and then its lexer, its sets and its plans are computed in this order. The
first stage after which an error is on record is the last one to run. What was computed up to there
is kept.
-/
namespace PredictiveParsing

inductive Stage
  | validation
  | lexer
  | sets
  | lookahead
deriving DecidableEq, Ord

def Stage.name : Stage → String
  | validation => "validation"
  | lexer => "lexer construction"
  | sets => "closure computation"
  | lookahead => "lookahead resolution"

structure AnalyzedGrammar where
  grammar : Grammar
  lexer : Option Lexer
  sets : Option GrammarSets
  plans : List (Option Plan)

namespace AnalyzedGrammar

def ofGrammar (g : Grammar) : AnalyzedGrammar := ⟨g, none, none, List.replicate g.nodes.size none⟩

def plan? (a : AnalyzedGrammar) (id : Nat) : Option Plan := a.plans[id]?.join

def plansById (a : AnalyzedGrammar) : List (Nat × Plan) :=
  a.plans.zipIdx.filterMap fun (plan, id) => plan.map (id, ·)

end AnalyzedGrammar

structure Compilation where
  diagnostics : List Diagnostic
  stoppedAfter : Option Stage
deriving DecidableEq

structure CompileError where
  errors : Nat
  stage : Stage
deriving DecidableEq

def CompileError.message (e : CompileError) : String :=
  s!"grammar has {e.errors} error(s); stopped after {e.stage.name}"

namespace Compilation

def ofDiagnostics (ds : List Diagnostic) (stoppedAfter : Option Stage) : Compilation :=
  ⟨Diagnostic.sorted ds, stoppedAfter⟩

def count (c : Compilation) (severity : Severity) : Nat := Diagnostic.count severity c.diagnostics

def result (c : Compilation) : Except CompileError (List Diagnostic) :=
  match c.stoppedAfter with
  | some stage => .error ⟨c.count .error, stage⟩
  | none => .ok c.diagnostics

end Compilation

def Grammar.compile (g : Grammar) : AnalyzedGrammar × Compilation :=
  let (g, ds) := g.validate
  let a := AnalyzedGrammar.ofGrammar g
  if Diagnostic.anyError ds then (a, .ofDiagnostics ds (some .validation))
  else
    let (lexer, found) := g.buildLexer
    let ds := ds ++ found
    let a := { a with lexer := lexer }
    if lexer.isNone || Diagnostic.anyError ds then (a, .ofDiagnostics ds (some .lexer))
    else
      let (sets, found) := g.computeSets
      let ds := ds ++ found
      let a := { a with sets := some sets }
      if Diagnostic.anyError ds then (a, .ofDiagnostics ds (some .sets))
      else
        let (plans, found) := g.planChoices sets
        let ds := ds ++ found
        ({ a with plans := plans },
          .ofDiagnostics ds (if Diagnostic.anyError ds then some .lookahead else none))

end PredictiveParsing
