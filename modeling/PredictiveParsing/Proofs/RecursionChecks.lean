import PredictiveParsing.Proofs.SententialForms

/-!
# Left recursion and loops without progress are reported

A report of left recursion stands at a left-recursive production and names a walk of leftmost steps
from it back to itself, and there is one if any production is left-recursive. The loops that are
reported are those whose body derives the empty text. Main statement: `recursionChecks_exact`.
-/
namespace PredictiveParsing.Grammar

open Relation LeftRecursion

variable {g : Grammar} {id : Nat}

/-- Leftmost steps lead from the first production through the others and back to it. -/
structure ClosedWalk (g : Grammar) (first : Production) (rest : List Production) : Prop where
  mem : ∀ q ∈ first :: rest, q ∈ g.productions
  steps : (first :: rest ++ [first]).IsChain fun q r => g.Leftmost q.root r

theorem exists_productions {ids : List Nat} (h : ∀ i ∈ ids, ∃ p ∈ g.productions, p.id = i) :
    ∃ ps : List Production, (∀ p ∈ ps, p ∈ g.productions) ∧ ps.map Production.id = ids := by
  induction ids with
  | nil => exact ⟨[], by simp, rfl⟩
  | cons i ids ih =>
    simp only [List.mem_cons, forall_eq_or_imp] at h
    obtain ⟨⟨p, hp, rfl⟩, hids⟩ := h
    obtain ⟨ps, hps, rfl⟩ := ih hids
    exact ⟨p :: ps, by simpa [hp] using hps, rfl⟩

theorem exists_closedWalk (hplanted : g.Planted) {cycle : List Nat}
    (h : cycle ∈ cycles g g.computeSets.1.nullable) :
    ∃ first rest, g.ClosedWalk first rest ∧ cycle = (first :: rest).map Production.id ∧
      g.LeftRecursive first := by
  have hcircular := circular_of_mem h
  have hids : ∀ i ∈ cycle, ∃ p ∈ g.productions, p.id = i := by
    intro i hi
    obtain ⟨j, -, hstep⟩ := hcircular.next i hi
    exact exists_of_begins hstep
  obtain ⟨firstId, restIds, hcycle, hcloses⟩ := hcircular.closes
  obtain ⟨ps, hps, rfl⟩ := exists_productions hids
  obtain ⟨first, rest, rfl, rfl, -⟩ := List.map_eq_cons_iff.1 hcycle
  have hfirst := hps first List.mem_cons_self
  refine ⟨first, rest, ⟨hps, ?_⟩, rfl, ?_⟩
  · have hmem : ∀ q ∈ first :: rest ++ [first], q ∈ g.productions := by
      intro q hq
      rcases List.mem_append.1 hq with hq | hq
      · exact hps q hq
      · exact List.mem_singleton.1 hq ▸ hfirst
    have hsteps : (first :: rest ++ [first]).map Production.id =
        (first :: rest).map Production.id ++ [first.id] := List.map_append
    rw [← hsteps, List.isChain_map] at hcloses
    refine hcloses.imp_of_mem_imp fun q r hq hr hstep => ?_
    obtain ⟨r', hr', hid⟩ := (begins_iff hplanted (hmem q hq)).1 hstep
    exact eq_of_id_eq hr'.mem (hmem r hr) hid ▸ hr'
  · rw [leftRecursive_iff hplanted hfirst]
    exact hcircular.returns List.mem_cons_self

def walkReport (first : Production) (rest : List Production) : Diagnostic :=
  let names := " -> ".intercalate ((first :: rest ++ [first]).map Production.name)
  ⟨.error, .leftRecursion, first.span, s!"production {first.name} is left-recursive: {names}"⟩

theorem report_closedWalk {first : Production} {rest : List Production}
    (h : g.ClosedWalk first rest) :
    report g ((first :: rest).map Production.id) = walkReport first rest := by
  have hname : ∀ q ∈ first :: rest, productionName g q.id = q.name := by
    intro q hq
    rw [productionName, getElem?_id (h.mem q hq)]
    rfl
  have hfirst := hname first List.mem_cons_self
  have hnames : (first :: rest).map (productionName g ∘ Production.id) =
      (first :: rest).map Production.name := List.map_congr_left hname
  have hspan := getElem?_id (h.mem first List.mem_cons_self)
  rw [report, walkReport, List.map_append, List.map_map, hnames, List.map_append]
  simp only [List.map_cons, List.head?_cons, Option.getD_some, hspan, hfirst, Option.map_some,
    List.map_nil]
  rfl

def loopBody? : Node.Kind → Option Nat
  | .zeroOrMore body => some body
  | .oneOrMore body => some body
  | _ => none

def Idles (g : Grammar) (id : Nat) : Prop :=
  ∃ body, (g.HasKind id (.zeroOrMore body) ∨ g.HasKind id (.oneOrMore body)) ∧ g.Derives body []

def idleLoops (g : Grammar) (nullable : Nullable) : List Nat :=
  g.nodeIds.filter fun id => (loopBody? (g.kindOf id)).any nullable.node

def idleReport (g : Grammar) (id : Nat) : Diagnostic :=
  ⟨.error, .nullableLoopBody, g.spanOf id,
    s!"loop body in {g.describe id} can match the empty string"⟩

theorem filter_checkBodies (g : Grammar) (nullable : Nullable) :
    (g.checkBodies nullable).filter (·.kind = .nullableLoopBody) =
      (g.idleLoops nullable).map g.idleReport := by
  rw [checkBodies, idleLoops, List.filter_filterMap, ← List.filterMap_eq_map, List.filterMap_filter]
  refine List.filterMap_congr fun id _ => ?_
  cases g.kindOf id with
  | zeroOrMore body | oneOrMore body =>
    by_cases hempty : nullable.node body = true
    · simp [hempty, loopBody?, idleReport, Diagnostic.ofKind, Diagnostic.Kind.severity]
    · simp [hempty, loopBody?]
  | zeroOrOne body =>
    by_cases hempty : nullable.node body = true
    · simp [hempty, loopBody?, Diagnostic.ofKind]
    · simp [hempty, loopBody?]
  | sequence | choice | nonterminal | token | tokenName | literal | action | lookahead => rfl

theorem loopBody?_eq_some {kind : Node.Kind} {body : Nat} :
    loopBody? kind = some body ↔ kind = .zeroOrMore body ∨ kind = .oneOrMore body := by
  cases kind <;> simp [loopBody?]

theorem mem_idleLoops : id ∈ g.idleLoops g.computeSets.1.nullable ↔ g.Idles id := by
  rw [idleLoops, List.mem_filter, Option.any_eq_true]
  constructor
  · rintro ⟨hid, body, hbody, hempty⟩
    have hkind := hasKind_kindOf (List.mem_range.1 hid)
    refine ⟨body, ?_, (g.nullable_iff body).1 hempty⟩
    rcases loopBody?_eq_some.1 hbody with hloop | hloop
    · exact .inl (hloop ▸ hkind)
    · exact .inr (hloop ▸ hkind)
  · rintro ⟨body, hkind, hempty⟩
    have hloop : g.kindOf id = .zeroOrMore body ∨ g.kindOf id = .oneOrMore body :=
      hkind.imp HasKind.kindOf HasKind.kindOf
    have hid : id ∈ g.nodeIds := hkind.elim HasKind.mem_nodeIds HasKind.mem_nodeIds
    exact ⟨hid, body, loopBody?_eq_some.2 hloop, (g.nullable_iff body).2 hempty⟩

theorem kind_of_mem_checkBodies {nullable : Nullable} {d : Diagnostic}
    (h : d ∈ g.checkBodies nullable) : d.kind ≠ .leftRecursion := by
  rw [checkBodies] at h
  obtain ⟨id, -, h⟩ := List.mem_filterMap.1 h
  cases hkind : g.kindOf id with
  | zeroOrMore body | oneOrMore body | zeroOrOne body =>
    simp only [hkind] at h
    split at h
    · obtain rfl := Option.some.inj h
      simp [Diagnostic.ofKind]
    · cases h
  | sequence | choice | nonterminal | token | tokenName | literal | action | lookahead =>
    simp only [hkind] at h
    cases h

/-- Left recursion is reported if there is any. Each report is at the span of a left-recursive
production and names the productions of a walk of leftmost steps from it back to itself. The loops
reported are those whose body derives the empty text, each once. -/
theorem recursionChecks_exact (g : Grammar) (hbuilt : g.Built) :
    let ds := g.computeSets.2
    ((∃ d ∈ ds, d.kind = .leftRecursion ∧ d.severity = .error) ↔
      ∃ p ∈ g.productions, g.LeftRecursive p) ∧
    (∀ d ∈ ds, d.kind = .leftRecursion →
      ∃ first rest, g.LeftRecursive first ∧ g.ClosedWalk first rest ∧ d = walkReport first rest) ∧
    ∃ loops : List Nat, loops.Pairwise (· < ·) ∧ (∀ id, id ∈ loops ↔ g.Idles id) ∧
      ds.filter (·.kind = .nullableLoopBody) = loops.map g.idleReport := by
  intro ds
  have hplanted := hbuilt.planted
  have hds : ds = (cycles g g.computeSets.1.nullable).map (report g) ++
      g.checkBodies g.computeSets.1.nullable := rfl
  have hreport : ∀ d ∈ ds, d.kind = .leftRecursion →
      ∃ first rest, g.LeftRecursive first ∧ g.ClosedWalk first rest ∧
        d = walkReport first rest := by
    intro d hd hkind
    rw [hds] at hd
    rcases List.mem_append.1 hd with hd | hd
    · obtain ⟨cycle, hcycle, rfl⟩ := List.mem_map.1 hd
      obtain ⟨first, rest, hwalk, rfl, hrecursive⟩ := exists_closedWalk hplanted hcycle
      exact ⟨first, rest, hrecursive, hwalk, report_closedWalk hwalk⟩
    · exact absurd hkind (kind_of_mem_checkBodies hd)
  refine ⟨⟨?_, ?_⟩, hreport, g.idleLoops g.computeSets.1.nullable, ?_, fun id => mem_idleLoops, ?_⟩
  · rintro ⟨d, hd, hkind, -⟩
    obtain ⟨first, rest, hrecursive, hwalk, -⟩ := hreport d hd hkind
    exact ⟨first, hwalk.mem first List.mem_cons_self, hrecursive⟩
  · rintro ⟨p, hp, hrecursive⟩
    -- some production on the cycle was recorded with the cycle that was found
    obtain ⟨r, hr, -⟩ := exists_leftRecursive ((leftRecursive_iff hplanted hp).1 hrecursive)
    obtain ⟨cycle, hcycle, -⟩ := mem_leftRecursive.1 hr
    have hmem : report g cycle ∈ ds := by
      rw [hds]
      exact List.mem_append_left _ (List.mem_map_of_mem hcycle)
    exact ⟨report g cycle, hmem, rfl, rfl⟩
  · exact List.pairwise_lt_range.filter _
  · have hnone : ((cycles g g.computeSets.1.nullable).map (report g)).filter
        (·.kind = .nullableLoopBody) = [] := by
      simp [List.filter_eq_nil_iff, report, Diagnostic.ofKind]
    rw [hds, List.filter_append, hnone, List.nil_append]
    exact filter_checkBodies g _

/-- `A → "y"? A "x" | "z"`: the recursion is behind a part that can be empty. -/
def hiddenRecursion : Grammar :=
  (ofDeclarations {}
    [.production "A" none .none (.choice
      [.seq [.opt (.literal "y"), .nonterminal "A", .literal "x"], .literal "z"])]).validate.1

theorem hiddenRecursion_leftRecursive :
    hiddenRecursion.LeftRecursive ⟨"A", 0, 6, none, .none⟩ := by
  have hchoice : hiddenRecursion.HasKind 6 (.choice [4, 5]) := rfl
  have hseq : hiddenRecursion.HasKind 4 (.sequence [1, 2, 3]) := rfl
  have hopt : hiddenRecursion.HasKind 1 (.zeroOrOne 0) := rfl
  have hself : hiddenRecursion.RefersTo 2 ⟨"A", 0, 6, none, .none⟩ := ⟨"A", rfl, rfl⟩
  have hform : hiddenRecursion.Yields 4 [2, 3] := by
    apply @Yields.sequence hiddenRecursion 4 [(1, []), (2, [2]), (3, [3])] hseq
    simp [Yields.skipped hopt, Yields.unit]
  exact ⟨2, [3], .choice hchoice (by simp) hform, hself⟩

theorem recursionChecks_exact_hiddenRecursion :
    hiddenRecursion.Built ∧
      ∃ d ∈ hiddenRecursion.computeSets.2, d.kind = .leftRecursion ∧ d.severity = .error := by
  have hbuilt : hiddenRecursion.Built := .validated (.declared _ _)
  have hmem : (⟨"A", 0, 6, none, .none⟩ : Production) ∈ hiddenRecursion.productions :=
    Array.mem_of_getElem? (i := 0) rfl
  exact ⟨hbuilt, (recursionChecks_exact hiddenRecursion hbuilt).1.2
    ⟨_, hmem, hiddenRecursion_leftRecursive⟩⟩

end PredictiveParsing.Grammar
