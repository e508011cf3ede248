import PredictiveParsing.Proofs.Fragments
import PredictiveParsing.Proofs.MinimalTables

/-!
# The table of some rules

What the table of an automaton says of a text is the lowest kind that the automaton accepts after
it. The automaton of rules goes on with code points only, so a table for them is settled by what the
rules say of texts of code points: it is the same for all rules that say so, and no automaton that
says so is smaller. Main statement: `minimalTable_canonical`.
-/
namespace PredictiveParsing

def IsText (cs : List Nat) : Prop := ∀ c ∈ cs, c ≤ CharSet.maxCodePoint

namespace Recognizer

variable {σ : Type}

def onCodePoints (r : Recognizer σ) : Recognizer σ :=
  { r with next? := fun s c => if c ≤ CharSet.maxCodePoint then r.next? s c else none }

theorem verdict_onCodePoints (r : Recognizer σ) {cs : List Nat} (h : IsText cs) (s : σ) :
    r.onCodePoints.verdict s cs = r.verdict s cs := by
  induction cs generalizing s with
  | nil => rfl
  | cons c cs ih =>
    obtain ⟨hc, hcs⟩ := List.forall_mem_cons.1 h
    have hnext : r.onCodePoints.next? s c = r.next? s c := if_pos hc
    rw [verdict, verdict, hnext]
    exact Option.bind_congr fun s' _ => ih hcs s'

theorem isText_of_verdict {r : Recognizer σ} {s : σ} {cs : List Nat} {kind : Nat}
    (h : r.onCodePoints.verdict s cs = some kind) : IsText cs := by
  induction cs generalizing s with
  | nil => simp [IsText]
  | cons c cs ih =>
    obtain ⟨s', hnext, hrest⟩ := Option.bind_eq_some_iff.1 h
    refine List.forall_mem_cons.2 ⟨?_, ih hrest⟩
    by_contra hc
    rw [onCodePoints] at hnext
    simp [hc] at hnext

end Recognizer

namespace Nfa

open Dfa Recognizer

variable {nfa : Nfa} {qs cs : List Nat} {c kind : Nat}

def lowestKind? (nfa : Nfa) (cs : List Nat) : Option Nat :=
  (nfa.kinds (nfa.runFrom nfa.startSet cs)).head?

def minimalTable (nfa : Nfa) : Dfa := nfa.determinize.dfa.prune.minimize

section

variable (h : nfa.WellFormed)

include h

theorem canonical_minimalTable : nfa.minimalTable.Canonical := by
  have hwf := wellFormed_determinize h
  exact canonical_minimize (wellFormed_prune hwf) (size_prune_pos _)
    (trim_prune hwf (size_determinize_pos nfa))

theorem verdict_minimalTable (cs : List Nat) :
    nfa.minimalTable.verdict 0 cs = nfa.lowestKind? cs := by
  have hwf := wellFormed_determinize h
  rw [minimalTable, verdict_minimize (wellFormed_prune hwf) (size_prune_pos _),
    verdict_prune hwf (size_determinize_pos nfa), verdict_determinize_start h, lowestKind?]

end

theorem step_beyond (rules : List Rule) (hc : CharSet.maxCodePoint < c) :
    (ofRules rules).step qs c = [] := by
  have hnone : (ofRules rules).targets qs c = [] := by
    refine List.eq_nil_iff_forall_not_mem.2 fun t ht => ?_
    obtain ⟨q, -, e, he, hcontains, -⟩ := mem_targets.1 ht
    have := (below_state rules q).label e he c hcontains
    omega
  rw [step, hnone, closure_nil]

theorem isText_of_runFrom (rules : List Rule) (h : (ofRules rules).runFrom qs cs ≠ []) :
    IsText cs := by
  induction cs generalizing qs with
  | nil => simp [IsText]
  | cons c cs ih =>
    refine List.forall_mem_cons.2 ⟨?_, ih h⟩
    by_contra hc
    have hrun : (ofRules rules).runFrom qs (c :: cs) =
        (ofRules rules).runFrom ((ofRules rules).step qs c) cs := rfl
    rw [hrun, step_beyond rules (Nat.lt_of_not_le hc), runFrom_nil] at h
    exact h rfl

theorem isText_of_lowestKind? {rules : List Rule} (h : (ofRules rules).lowestKind? cs = some kind) :
    IsText cs := by
  have hrun : (ofRules rules).runFrom (ofRules rules).startSet cs ≠ [] := by
    intro hnil
    rw [lowestKind?, hnil] at h
    cases h
  exact isText_of_runFrom rules hrun

theorem eq_of_isText {f g : List Nat → Option Nat} (hf : ∀ cs kind, f cs = some kind → IsText cs)
    (hg : ∀ cs kind, g cs = some kind → IsText cs) (h : ∀ cs, IsText cs → f cs = g cs)
    (cs : List Nat) : f cs = g cs := by
  by_cases hcs : IsText cs
  · exact h cs hcs
  · apply Option.ext
    intro kind
    exact ⟨fun hkind => absurd (hf cs kind hkind) hcs, fun hkind => absurd (hg cs kind hkind) hcs⟩

/-- The table says of a text what the rules say. Rules that say the same of all texts have the same
table, and no automaton that says the same has fewer states. -/
theorem minimalTable_canonical (rules : List Rule) :
    (∀ cs, (ofRules rules).minimalTable.verdict 0 cs = (ofRules rules).lowestKind? cs) ∧
    (∀ rules' : List Rule,
      (∀ cs, IsText cs → (ofRules rules).lowestKind? cs = (ofRules rules').lowestKind? cs) →
      (ofRules rules).minimalTable = (ofRules rules').minimalTable) ∧
    ∀ (σ : Type) [Fintype σ] (r : Recognizer σ),
      (∀ cs, IsText cs → r.verdict r.start cs = (ofRules rules).lowestKind? cs) →
      (ofRules rules).minimalTable.size ≤ Fintype.card σ := by
  have hcanonical (rules : List Rule) : (ofRules rules).minimalTable.Canonical :=
    canonical_minimalTable (wellFormed_ofRules rules)
  have hverdict (rules : List Rule) (cs : List Nat) :
      (ofRules rules).minimalTable.recognizer.verdict 0 cs = (ofRules rules).lowestKind? cs := by
    rw [verdict_recognizer, verdict_minimalTable (wellFormed_ofRules rules)]
  refine ⟨verdict_minimalTable (wellFormed_ofRules rules), fun rules' h => ?_, fun σ _ r h => ?_⟩
  · refine (hcanonical rules).ext (hcanonical rules') fun cs => ?_
    rw [hverdict, hverdict]
    exact eq_of_isText (fun _ _ => isText_of_lowestKind?) (fun _ _ => isText_of_lowestKind?) h cs
  · have hconfined : r.onCodePoints.Confined Finset.univ :=
      ⟨Finset.mem_univ _, fun _ _ _ _ _ => Finset.mem_univ _⟩
    refine (hcanonical rules).size_le hconfined fun cs => ?_
    rw [hverdict]
    refine eq_of_isText (fun _ _ => isText_of_lowestKind?) (fun _ _ => isText_of_verdict)
      (fun cs hcs => ?_) cs
    rw [verdict_onCodePoints r hcs]
    exact (h cs hcs).symm

def letterRules : List Rule := [⟨1, .literal "a", false⟩]

def letterTwiceRules : List Rule := [⟨1, .literal "a", false⟩, ⟨2, .literal "a", false⟩]

def letterTable : Dfa := ⟨#[⟨[⟨97, 97, 1⟩], none⟩, ⟨[], some 1⟩]⟩

def letterRecognizer : Recognizer (Fin 2) where
  start := 0
  next? s c := if s = 0 ∧ c = 97 then some 1 else none
  accept? s := if s = 1 then some 1 else none

theorem next?_letterTable (c : Nat) :
    letterTable.next? 0 c = if c = 97 then some 1 else none := by
  have hordered : Ordered (letterTable.transitions 0) :=
    ⟨List.pairwise_singleton _ _, by simp [letterTable, transitions]⟩
  apply Option.ext
  intro q
  rw [next?_eq_some hordered]
  by_cases hc : c = 97
  · simp [Leads, letterTable, transitions, hc]
  · simp [Leads, letterTable, transitions, hc]
    omega

theorem verdict_letterRecognizer (cs : List Nat) :
    letterRecognizer.verdict 0 cs = letterTable.verdict 0 cs := by
  match cs with
  | [] => rfl
  | c :: cs =>
    have hnext : letterRecognizer.next? 0 c = if c = 97 then some 1 else none := by
      simp [letterRecognizer]
    rw [Recognizer.verdict, Dfa.verdict, next?_letterTable, hnext]
    by_cases hc : c = 97
    · cases cs <;> simp [hc, Recognizer.verdict, Dfa.verdict, letterRecognizer] <;> rfl
    · simp [hc]

theorem lowestKind?_of_determinize {rules : List Rule}
    (h : (ofRules rules).determinize.dfa = letterTable) (cs : List Nat) :
    (ofRules rules).lowestKind? cs = letterTable.verdict 0 cs := by
  rw [← h, verdict_determinize_start (wellFormed_ofRules rules), lowestKind?]

theorem minimalTable_canonical_letter :
    (ofRules letterRules).minimalTable.verdict 0 [97] = some 1 ∧
    ((∀ cs, IsText cs →
        (ofRules letterRules).lowestKind? cs = (ofRules letterTwiceRules).lowestKind? cs) ∧
      (ofRules letterRules).minimalTable = (ofRules letterTwiceRules).minimalTable) ∧
    (∀ cs, IsText cs →
        letterRecognizer.verdict letterRecognizer.start cs = (ofRules letterRules).lowestKind? cs) ∧
      (ofRules letterRules).minimalTable.size ≤ Fintype.card (Fin 2) := by
  have hletter (cs : List Nat) :
      (ofRules letterRules).lowestKind? cs = letterTable.verdict 0 cs :=
    lowestKind?_of_determinize (by decide +kernel) cs
  have htwice (cs : List Nat) :
      (ofRules letterTwiceRules).lowestKind? cs = letterTable.verdict 0 cs :=
    lowestKind?_of_determinize (by decide +kernel) cs
  have hsame : ∀ cs, IsText cs →
      (ofRules letterRules).lowestKind? cs = (ofRules letterTwiceRules).lowestKind? cs :=
    fun cs _ => (hletter cs).trans (htwice cs).symm
  have hrecognizer : ∀ cs, IsText cs →
      letterRecognizer.verdict letterRecognizer.start cs = (ofRules letterRules).lowestKind? cs :=
    fun cs _ => (verdict_letterRecognizer cs).trans (hletter cs).symm
  obtain ⟨hverdict, hcanonical, hleast⟩ := minimalTable_canonical letterRules
  refine ⟨?_, ⟨hsame, hcanonical letterTwiceRules hsame⟩,
    hrecognizer, hleast (Fin 2) letterRecognizer hrecognizer⟩
  rw [hverdict, hletter]
  rfl

end Nfa
end PredictiveParsing
