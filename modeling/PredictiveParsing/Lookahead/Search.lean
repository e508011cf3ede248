import PredictiveParsing.Lookahead.Plan
import PredictiveParsing.Sets.Basic

/-!
# The search for lookahead

A plan is made for every choice point. Each way out of it starts with one token of lookahead. As
long as two of them share an upcoming text, and the bound allows it, those that do are given one
token more. Alternatives whose lookahead the grammar states keep what it states; unless the options
say otherwise they are not checked against the others. What is still shared in the end is a
conflict.
-/
namespace PredictiveParsing

def Node.Kind.ways : Node.Kind → List (Option Nat)
  | .choice items => items.map some
  | .zeroOrMore body => [some body, none]
  | .oneOrMore body => [some body, none]
  | .zeroOrOne body => [some body, none]
  | _ => []

def Grammar.statedLookahead? (g : Grammar) (alt : Nat) : Option StatedLookahead :=
  match g.kindOf alt with
  | .sequence (first :: _) =>
    match g.kindOf first with
    | .lookahead la => some la
    | _ => none
  | _ => none

/-- The sequences that select a way out of `choice`: what the alternative and its continuation begin
with, or what follows the choice. -/
def GrammarSets.selecting (s : GrammarSets) (choice : Nat) (way : Option Nat) (k : Nat) : SequenceSet :=
  match way with
  | some alt => s.lookahead alt alt k
  | none => s.followK choice k

namespace Alternative

def atDepth (s : GrammarSets) (choice : Nat) (way : Option Nat) (k : Nat) : Alternative :=
  ⟨way, k, s.selecting choice way k, none⟩

/-- An alternative with stated lookahead. A scan looks at what its expansion begins with, as far as
the sets reach unless an amount is stated; a predicate alone looks at no token. -/
def ofStated (s : GrammarSets) (alt : Nat) (la : StatedLookahead) : Alternative :=
  let guarded (depth : Nat) (set : SequenceSet) : Alternative :=
    ⟨some alt, depth, set, some ⟨la.semantic, la.nested, la.negated⟩⟩
  match la.nested, la.amount with
  | some nested, amount => guarded (amount.getD s.k) (s.firstK nested (amount.getD s.k))
  | none, some amount => guarded amount (s.lookahead alt alt amount)
  | none, none => guarded 0 .epsilon

def initial (g : Grammar) (s : GrammarSets) (choice : Nat) (way : Option Nat) : Alternative :=
  match way.bind fun alt => (g.statedLookahead? alt).map (alt, ·) with
  | some (alt, la) => ofStated s alt la
  | none => atDepth s choice way 1

def meets (a b : Alternative) : Bool := (a.set.overlap? b.set).isSome

end Alternative

structure ChoiceSearch where
  choice : Nat
  force : Bool
  alternatives : List Alternative

namespace ChoiceSearch

def start (g : Grammar) (s : GrammarSets) (choice : Nat) : ChoiceSearch where
  choice := choice
  force := g.options.forceLookaheadCheck
  alternatives := (g.kindOf choice).ways.map (.initial g s choice)

def checked (c : ChoiceSearch) : List (Alternative × Nat) :=
  c.alternatives.zipIdx.filter fun (a, _) => c.force || !a.isExplicit

/-- Whether alternative `i` is to look at one token more: its depth is not stated, and it shares an
upcoming text with another one that is checked. -/
def isGrowing (c : ChoiceSearch) (a : Alternative) (i : Nat) : Bool :=
  !a.isExplicit && c.checked.any fun (b, j) => j != i && a.meets b

def grow (s : GrammarSets) (k : Nat) (c : ChoiceSearch) : ChoiceSearch :=
  { c with
    alternatives := c.alternatives.mapIdx fun i a =>
      if c.isGrowing a i then .atDepth s c.choice a.expansion k else a }

/-- Searches on from depth `k` with at most `left` steps. Returns the depth at which it ends. -/
def run (s : GrammarSets) : (left k : Nat) → ChoiceSearch → Nat × ChoiceSearch
  | 0, k, c => (k, c)
  | left + 1, k, c =>
    if c.alternatives.zipIdx.any fun (a, i) => c.isGrowing a i then
      run s left (k + 1) (c.grow s (k + 1))
    else (k, c)

def firstMeeting? : List (Alternative × Nat) → Option (Nat × Nat × List Nat)
  | [] => none
  | (a, i) :: later =>
    match later.findSome? fun (b, j) => (a.set.overlap? b.set).map fun shared => (i, j, shared) with
    | some found => some found
    | none => firstMeeting? later

def outcome (c : ChoiceSearch) : Outcome :=
  match firstMeeting? c.checked with
  | some (first, second, shared) => .conflict first second shared
  | none => .resolved

theorem outcome_resolved_iff {c : ChoiceSearch} :
    c.outcome = .resolved ↔ firstMeeting? c.checked = none := by
  rw [outcome]
  split <;> simp [*]

theorem outcome_conflict_iff {c : ChoiceSearch} {i j : Nat} {shared : List Nat} :
    c.outcome = .conflict i j shared ↔ firstMeeting? c.checked = some (i, j, shared) := by
  rw [outcome]
  split <;> simp [*]

def plan (searched : Nat) (c : ChoiceSearch) : Plan where
  k := c.alternatives.foldl (fun k a => max k a.depth) searched
  alternatives := c.alternatives
  outcome := c.outcome

end ChoiceSearch

namespace Grammar

def searchBound (g : Grammar) (s : GrammarSets) : Nat := max 1 (min g.options.maxLookahead s.k)

def conflictReport (g : Grammar) (choice : Nat) (alternatives : List Alternative) (i j : Nat)
    (shared : List Nat) (k : Nat) : Diagnostic :=
  let place (n : Nat) : String :=
    match alternatives[n]?.bind Alternative.expansion with
    | some id => (g.spanOf id).display
    | none => "exit"
  let tokens := if shared.isEmpty then "<empty>" else " ".intercalate (shared.map g.tokenName)
  let severity := match g.options.conflictPolicy with
    | .warn => Severity.warning
    | .error => Severity.error
  ⟨severity, .lookaheadConflict, g.spanOf choice,
    s!"choice in {g.describe choice}: alternatives {i + 1} ({place i}) and {j + 1} ({place j})" ++
      s!" both start with {tokens} at {k} tokens of lookahead; the earlier one is taken"⟩

def planReports (g : Grammar) (choice : Nat) (p : Plan) (k : Nat) : List Diagnostic :=
  (match p.outcome with
    | .conflict i j shared => [g.conflictReport choice p.alternatives i j shared k]
    | .resolved => []) ++
  if 1 < k then
    [.ofKind .lookaheadGrowth (g.spanOf choice)
      s!"choice in {g.describe choice} uses {k} tokens of lookahead"]
  else []

def planChoice (g : Grammar) (s : GrammarSets) (choice : Nat) : Plan × List Diagnostic :=
  let (k, c) := (ChoiceSearch.start g s choice).run s (g.searchBound s - 1) 1
  let p := c.plan k
  (p, g.planReports choice p k)

def planChoices (g : Grammar) (s : GrammarSets) : List (Option Plan) × List Diagnostic :=
  let planned := g.nodeIds.map fun id =>
    if (g.kindOf id).isChoicePoint then some (g.planChoice s id) else none
  (planned.map (·.map (·.1)), planned.flatMap fun p => (p.map (·.2)).getD [])

@[simp] theorem length_planChoices (g : Grammar) (s : GrammarSets) :
    (g.planChoices s).1.length = g.nodes.size := by
  simp [planChoices, nodeIds]

theorem getElem?_planChoices {g : Grammar} (s : GrammarSets) {id : Nat} (h : id < g.nodes.size) :
    (g.planChoices s).1[id]? =
      some (if (g.kindOf id).isChoicePoint then some (g.planChoice s id).1 else none) := by
  rw [planChoices, List.map_map, List.getElem?_map, nodeIds, List.getElem?_range h, Option.map_some,
    Function.comp_apply]
  split <;> rfl

end Grammar
end PredictiveParsing
