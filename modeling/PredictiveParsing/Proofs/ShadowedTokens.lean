import PredictiveParsing.Proofs.Lexing
import PredictiveParsing.Proofs.Simulation

/-!
# Definitions that never win

A definition is covered if every word that belongs to it belongs to an active definition of lower
kind as well. In a table in which every state is reached by some word, the kinds that are accepted
somewhere are those that win some word, so the definitions that are missing there are the covered
ones. The first set of states that could have accepted a covered definition is reached by a word of
it, and the kind that wins there is lower. Main statement: `unreachableTokens_exact`.
-/
namespace PredictiveParsing

open Exploration

namespace Dfa

variable {d : Dfa} {q kind : Nat}

theorem run?_concat (d : Dfa) (q : Nat) (cs : List Nat) (c : Nat) :
    d.run? q (cs ++ [c]) = (d.run? q cs).bind fun p => d.next? p c := by
  induction cs generalizing q with
  | nil => simp [run?]
  | cons a cs ih =>
    rw [List.cons_append, run?, run?, Option.bind_assoc]
    exact Option.bind_congr fun p _ => ih p

theorem mem_acceptedKinds : kind ∈ d.acceptedKinds ↔ ∃ q, d.accept? q = some kind := by
  rw [acceptedKinds, Ascending.mem_ofList, List.mem_filterMap]
  constructor
  · rintro ⟨s, hs, haccept⟩
    obtain ⟨q, hq⟩ := List.mem_iff_getElem?.1 hs
    refine ⟨q, ?_⟩
    rw [accept?, ← Array.getElem?_toList, hq, Option.bind_some, haccept]
  · rintro ⟨q, hq⟩
    obtain ⟨s, hs, haccept⟩ := Option.bind_eq_some_iff.1 hq
    exact ⟨s, Array.mem_toList_iff.2 (Array.mem_of_getElem? hs), haccept⟩

theorem mem_acceptedKinds_of_verdict {cs : List Nat} (h : d.verdict q cs = some kind) :
    kind ∈ d.acceptedKinds := by
  rw [verdict_eq_bind_run?] at h
  obtain ⟨p, -, hp⟩ := Option.bind_eq_some_iff.1 h
  exact mem_acceptedKinds.2 ⟨p, hp⟩

theorem exists_run?_of_reaches (h : d.WellFormed) {keep : Nat → Bool} {start : Nat}
    (hq : Reaches (fun q => (d.targets q).filter keep) [start] q) :
    ∃ cs, d.run? start cs = some q := by
  obtain ⟨r, hr, hpath⟩ := hq
  obtain rfl := List.mem_singleton.1 hr
  induction hpath with
  | refl => exact ⟨[], rfl⟩
  | tail _ hstep ih =>
    obtain ⟨cs, hcs⟩ := ih
    obtain ⟨t, ht, rfl⟩ := List.mem_map.1 (List.mem_of_mem_filter hstep)
    exact ⟨cs ++ [t.lo], by rw [run?_concat, hcs, Option.bind_some, h.next?_lo ht]⟩

theorem mem_acceptedKinds_renumber (h : d.WellFormed) {start : Nat} (hstart : start < d.size)
    {keep : Nat → Bool} (hdead : ∀ q, keep q = false → ∀ cs, d.verdict q cs = none) :
    kind ∈ (d.renumber start keep).acceptedKinds ↔
      ∃ cs, (d.renumber start keep).verdict 0 cs = some kind := by
  constructor
  · intro hkind
    obtain ⟨i, hi⟩ := mem_acceptedKinds.1 hkind
    rw [renumber_eq, accept?_map] at hi
    obtain ⟨q, hq, haccept⟩ := Option.bind_eq_some_iff.1 hi
    obtain ⟨cs, hcs⟩ := exists_run?_of_reaches h ((mem_order h hstart).1 (List.mem_of_getElem? hq))
    refine ⟨cs, ?_⟩
    rw [verdict_renumber_start h hstart hdead, verdict_eq_bind_run?, hcs]
    exact haccept
  · rintro ⟨cs, hcs⟩
    exact mem_acceptedKinds_of_verdict hcs

theorem mem_acceptedKinds_prune (h : d.WellFormed) (hsize : 0 < d.size) :
    kind ∈ d.prune.acceptedKinds ↔ ∃ cs, d.prune.verdict 0 cs = some kind :=
  mem_acceptedKinds_renumber h hsize fun _ => verdict_of_not_live h

theorem mem_acceptedKinds_minimize (h : d.WellFormed) (hsize : 0 < d.size) :
    kind ∈ d.minimize.acceptedKinds ↔ ∃ cs, d.minimize.verdict 0 cs = some kind := by
  obtain ⟨hcovers, -, -⟩ := refineFully_acceptBlocks h hsize
  rw [minimize, if_neg (Nat.ne_of_gt hsize)]
  apply mem_acceptedKinds_renumber (wellFormed_quotient h hcovers)
  · rw [size_quotient]
    exact hcovers.lt 0 hsize
  · exact fun _ hkeep => by cases hkeep

end Dfa

namespace Nfa

variable {nfa : Nfa} {kind : Nat} (h : nfa.WellFormed)

include h

theorem mem_acceptedKinds_pruned (minimize : Bool) :
    kind ∈ (if minimize then nfa.determinize.dfa.prune.minimize
        else nfa.determinize.dfa.prune).acceptedKinds ↔
      ∃ cs, nfa.lowestKind? cs = some kind := by
  have hdfa := wellFormed_determinize h
  have hsize := size_determinize_pos nfa
  cases minimize with
  | true =>
    rw [if_pos rfl, Dfa.mem_acceptedKinds_minimize (Dfa.wellFormed_prune hdfa)
      (Dfa.size_prune_pos _)]
    exact exists_congr fun cs => by rw [← verdict_minimalTable h, minimalTable]
  | false =>
    rw [if_neg Bool.false_ne_true, Dfa.mem_acceptedKinds_prune hdfa hsize]
    refine exists_congr fun cs => ?_
    rw [Dfa.verdict_prune hdfa hsize, verdict_determinize_start h, lowestKind?]

theorem exists_word_of_mem_allSubsets {qs : List Nat} (hqs : qs ∈ nfa.allSubsets) :
    ∃ w, nfa.runFrom nfa.startSet w = qs := by
  obtain ⟨r, hr, hpath⟩ := (mem_allSubsets h).1 hqs
  obtain rfl := List.mem_singleton.1 hr
  clear hqs
  induction hpath with
  | refl => exact ⟨[], rfl⟩
  | tail _ hstep ih =>
    obtain ⟨w, rfl⟩ := ih
    obtain ⟨⟨i, xs⟩, hmem, rfl⟩ := List.mem_map.1 hstep
    obtain ⟨i, hi, heq⟩ := List.mem_map.1 hmem
    obtain ⟨x, hx⟩ := interval_of_movable hi
    have hnonempty := (CharSet.increasing_partition nfa.labels).nonempty x (List.mem_of_getElem? hx)
    refine ⟨w ++ [x.lo], ?_⟩
    rw [← (Prod.mk.inj heq).2, closure_moved_eq_step h hx (Nat.le_refl _) hnonempty]
    simp only [runFrom, List.foldl_append, List.foldl_cons, List.foldl_nil]

theorem runFrom_mem_allSubsets {qs w : List Nat} (hqs : qs ∈ nfa.allSubsets)
    (hne : nfa.runFrom qs w ≠ []) : nfa.runFrom qs w ∈ nfa.allSubsets := by
  induction w generalizing qs with
  | nil => exact hqs
  | cons c w ih =>
    have hrun : nfa.runFrom qs (c :: w) = nfa.runFrom (nfa.step qs c) w := rfl
    rw [hrun] at hne ⊢
    cases htargets : nfa.targets qs c with
    | nil =>
      rw [step, htargets, closure_nil, runFrom_nil] at hne
      exact absurd rfl hne
    | cons t ts => exact ih (step_mem_allSubsets h hqs (htargets ▸ List.mem_cons_self)) hne

omit h in
def Subsets.firstWinner? (subsets : Subsets) (kind : Nat) : Option Nat :=
  (subsets.kinds.find? fun kinds => kinds.contains kind).bind List.head?

theorem firstWinner?_eq_some {k : Nat} (hk : nfa.determinize.firstWinner? kind = some k) :
    ∃ w, kind ∈ nfa.kinds (nfa.runFrom nfa.startSet w) ∧ nfa.lowestKind? w = some k := by
  obtain ⟨kinds, hfind, hhead⟩ := Option.bind_eq_some_iff.1 hk
  have hkind : kind ∈ kinds := by simpa using List.find?_some hfind
  obtain ⟨qs, hqs, rfl⟩ := List.mem_map.1 (List.mem_of_find?_eq_some hfind)
  obtain ⟨w, rfl⟩ := exists_word_of_mem_allSubsets h hqs
  exact ⟨w, hkind, hhead⟩

theorem firstWinner?_eq_none_iff : nfa.determinize.firstWinner? kind = none ↔
    ∀ w, kind ∉ nfa.kinds (nfa.runFrom nfa.startSet w) := by
  constructor
  · intro hnone w hkind
    have hne : nfa.runFrom nfa.startSet w ≠ [] := by
      intro hnil
      rw [hnil] at hkind
      cases hkind
    have hstart : nfa.startSet ∈ nfa.allSubsets :=
      List.mem_of_getElem? (getElem?_reachable_zero _ _ _)
    have hmem : nfa.kinds (nfa.runFrom nfa.startSet w) ∈ nfa.determinize.kinds :=
      List.mem_map_of_mem (runFrom_mem_allSubsets h hstart hne)
    rw [Subsets.firstWinner?] at hnone
    cases hfind : nfa.determinize.kinds.find? (fun kinds => kinds.contains kind) with
    | none => exact List.find?_eq_none.1 hfind _ hmem (List.contains_iff_mem.2 hkind)
    | some kinds =>
      have hfound : kind ∈ kinds := by simpa using List.find?_some hfind
      rw [hfind, Option.bind_some, List.head?_eq_none_iff] at hnone
      rw [hnone] at hfound
      cases hfound
  · intro hnone
    rw [Option.eq_none_iff_forall_ne_some]
    intro k hk
    obtain ⟨w, hw, -⟩ := firstWinner?_eq_some h hk
    exact hnone w hw

end Nfa

namespace Grammar

variable {g : Grammar} {state : String} {kind : Nat}

/-- Every word that belongs to the definition belongs to an active one of lower kind. -/
def Covered (g : Grammar) (state : String) (kind : Nat) : Prop :=
  ∀ w, IsText w → g.SpelledAs state w kind → ∃ k < kind, g.SpelledAs state w k

def coverReport (g : Grammar) (state : String) (kind : Nat) (winner : Option Nat) : Diagnostic :=
  let because := match winner with
    | some winner => s!": {g.tokenName winner} matches the same input first"
    | none => ""
  .ofKind .unreachableToken ((g.tokens[kind]?.map TokenDef.span).getD .none)
    s!"token {g.tokenName kind} can never be matched in lexical state {state}{because}"

/-- The definitions `lost` are the covered ones of the active definitions, in their order; the one
that is named for each shares a word with it and wins over it, and none is named if it has no
word. -/
structure Loses (g : Grammar) (state : String) (lost : List Nat) (winner : Nat → Option Nat) :
    Prop where
  sublist : lost.Sublist (g.activeTokens state)
  covered : ∀ kind ∈ g.activeTokens state, kind ∈ lost ↔ g.Covered state kind
  named : ∀ kind ∈ lost, ∀ k, winner kind = some k → k < kind ∧ k ∈ g.activeTokens state ∧
    ∃ w, IsText w ∧ g.SpelledAs state w kind ∧ g.SpelledAs state w k
  unnamed : ∀ kind ∈ lost, winner kind = none ↔ ∀ w, IsText w → ¬ g.SpelledAs state w kind

theorem kind_of_mem_buildAutomaton {d : Diagnostic} (hd : d ∈ (g.buildAutomaton state).2) :
    d.kind = .unreachableToken := by
  obtain ⟨kind, -, rfl⟩ := List.mem_map.1 hd
  rfl

theorem kind_of_mem_checkStateReachability {d : Diagnostic} (hd : d ∈ g.checkStateReachability) :
    d.kind = .unreachableLexicalState := by
  obtain ⟨⟨name, s⟩, -, heq⟩ := List.mem_filterMap.1 hd
  simp only at heq
  split at heq
  · cases heq
  · obtain rfl := Option.some.inj heq
    rfl

section

variable {lexer : Lexer} (h : g.buildLexer.1 = some lexer)

include h

theorem mem_kinds_iff_spelledAs {w : List Nat} :
    kind ∈ (Nfa.ofRules (g.rules state)).kinds ((Nfa.ofRules (g.rules state)).runFrom
        (Nfa.ofRules (g.rules state)).startSet w) ↔ g.SpelledAs state w kind := by
  rw [Nfa.mem_kinds_ofRules, exists_rule_iff h]

theorem SpelledAs.runFrom_ne_nil {w : List Nat} (hw : g.SpelledAs state w kind) :
    (Nfa.ofRules (g.rules state)).runFrom (Nfa.ofRules (g.rules state)).startSet w ≠ [] := by
  intro hnil
  have hkind := (mem_kinds_iff_spelledAs h).2 hw
  rw [hnil] at hkind
  cases hkind

theorem SpelledAs.isText {w : List Nat} (hw : g.SpelledAs state w kind) : IsText w :=
  Nfa.isText_of_runFrom (g.rules state) (hw.runFrom_ne_nil h)

theorem map_kind_rules (state : String) :
    (g.rules state).map Nfa.Rule.kind = g.activeTokens state := by
  rw [rules, List.map_filterMap]
  refine (List.filterMap_congr fun kind hkind => ?_).trans List.filterMap_some
  obtain ⟨t, ht, rfl⟩ := List.mem_map.1 hkind
  have hmem : t ∈ g.tokens := Array.mem_toList_iff.1 (List.mem_of_mem_filter ht)
  obtain ⟨i, hi⟩ := Array.mem_iff_getElem?.1 hmem
  obtain rfl := kind_eq hi
  obtain ⟨p, hp⟩ := exists_usablePattern h hmem (ne_eofKind_of_mem_activeTokens hkind)
  simp only [hi, hp, Option.map_some]

theorem not_mem_acceptedKinds_iff :
    kind ∉ (g.buildAutomaton state).1.dfa.acceptedKinds ↔ g.Covered state kind := by
  have haccepted : kind ∈ (g.buildAutomaton state).1.dfa.acceptedKinds ↔
      ∃ w, g.SpelledAs state w kind ∧ ∀ k, g.SpelledAs state w k → kind ≤ k := by
    have hnfa := Nfa.wellFormed_ofRules (g.rules state)
    refine (Nfa.mem_acceptedKinds_pruned hnfa g.options.minimize).trans (exists_congr fun w => ?_)
    rw [Nfa.lowestKind?, Ascending.head?_eq_some_iff (Nfa.pairwise_kinds _ _)]
    simp only [mem_kinds_iff_spelledAs h]
  rw [haccepted, Covered]
  constructor
  · intro hnone w _ hw
    by_contra hlower
    push Not at hlower
    exact hnone ⟨w, hw, fun k hk => Nat.le_of_not_lt fun hlt => hlower k hlt hk⟩
  · rintro hcovered ⟨w, hw, hlowest⟩
    obtain ⟨k, hlt, hk⟩ := hcovered w (hw.isText h) hw
    exact Nat.not_le_of_lt hlt (hlowest k hk)

theorem firstWinner?_rules_eq_none_iff :
    (Nfa.ofRules (g.rules state)).determinize.firstWinner? kind = none ↔
      ∀ w, IsText w → ¬ g.SpelledAs state w kind := by
  rw [Nfa.firstWinner?_eq_none_iff (Nfa.wellFormed_ofRules _)]
  simp only [mem_kinds_iff_spelledAs h]
  exact ⟨fun hnone w _ => hnone w, fun hnone w hw => hnone w (hw.isText h) hw⟩

theorem firstWinner?_rules_eq_some (hcovered : g.Covered state kind) {k : Nat}
    (hk : (Nfa.ofRules (g.rules state)).determinize.firstWinner? kind = some k) :
    k < kind ∧ k ∈ g.activeTokens state ∧
      ∃ w, IsText w ∧ g.SpelledAs state w kind ∧ g.SpelledAs state w k := by
  obtain ⟨w, hkind, hlowest⟩ := Nfa.firstWinner?_eq_some (Nfa.wellFormed_ofRules _) hk
  rw [Nfa.lowestKind?, Ascending.head?_eq_some_iff (Nfa.pairwise_kinds _ _)] at hlowest
  simp only [mem_kinds_iff_spelledAs h] at hkind hlowest
  obtain ⟨hwinner, hle⟩ := hlowest
  have htext := hkind.isText h
  obtain ⟨j, hlt, hj⟩ := hcovered w htext hkind
  exact ⟨Nat.lt_of_le_of_lt (hle j hj) hlt, hwinner.1, w, htext, hkind, hwinner⟩

theorem loses_buildAutomaton (state : String) :
    ∃ lost, (g.buildAutomaton state).2 = lost.map (fun kind => g.coverReport state kind
        ((Nfa.ofRules (g.rules state)).determinize.firstWinner? kind)) ∧
      g.Loses state lost (Nfa.ofRules (g.rules state)).determinize.firstWinner? := by
  refine ⟨((g.rules state).map Nfa.Rule.kind).filter fun kind =>
    !(g.buildAutomaton state).1.dfa.acceptedKinds.contains kind, rfl, ?_⟩
  rw [map_kind_rules h]
  have hlost {kind : Nat} (hkind : kind ∈ g.activeTokens state) :
      kind ∈ (g.activeTokens state).filter (fun kind =>
        !(g.buildAutomaton state).1.dfa.acceptedKinds.contains kind) ↔ g.Covered state kind := by
    rw [List.mem_filter, and_iff_right hkind, ← not_mem_acceptedKinds_iff h]
    simp
  refine ⟨List.filter_sublist, fun kind => hlost, fun kind hkind k hk => ?_, fun kind _ => ?_⟩
  · exact firstWinner?_rules_eq_some h ((hlost (List.mem_of_mem_filter hkind)).1 hkind) hk
  · exact firstWinner?_rules_eq_none_iff h

theorem reports_buildLexer : g.buildLexer.2 =
    g.checkStateReachability ++ g.states.names.flatMap fun state => (g.buildAutomaton state).2 := by
  rw [buildLexer] at h ⊢
  split at h
  · next hfaults => simp only [hfaults, if_true, List.flatMap_map]
  · cases h

theorem filter_buildLexer : g.buildLexer.2.filter (·.kind = .unreachableToken) =
    g.states.names.flatMap fun state => (g.buildAutomaton state).2 := by
  have hstates : ∀ d ∈ g.checkStateReachability, ¬ d.kind = .unreachableToken := by
    intro d hd
    rw [kind_of_mem_checkStateReachability hd]
    decide
  have htokens : ∀ d ∈ g.states.names.flatMap fun state => (g.buildAutomaton state).2,
      d.kind = .unreachableToken := by
    intro d hd
    obtain ⟨state, -, hd⟩ := List.mem_flatMap.1 hd
    exact kind_of_mem_buildAutomaton hd
  rw [reports_buildLexer h, List.filter_append, List.filter_eq_nil_iff.2 (by simpa using hstates),
    List.filter_eq_self.2 (by simpa using htokens), List.nil_append]

end

def minimizing (g : Grammar) (minimize : Bool) : Grammar :=
  { g with options := { g.options with minimize := minimize } }

theorem inlineName_minimizing (g : Grammar) (b : Bool) :
    (g.minimizing b).inlineName = g.inlineName := by
  funext fuel
  induction fuel with
  | zero => rfl
  | succ fuel ih =>
    funext path name
    rw [inlineName, inlineName, ih]
    rfl

theorem usablePattern_minimizing (g : Grammar) (b : Bool) :
    (g.minimizing b).usablePattern = g.usablePattern := by
  funext t
  rw [usablePattern, usablePattern, inlined, inlined, inlineName_minimizing]
  rfl

theorem rules_minimizing (g : Grammar) (b : Bool) (state : String) :
    (g.minimizing b).rules state = g.rules state := by
  rw [rules, rules, usablePattern_minimizing]
  rfl

theorem reports_minimizing (g : Grammar) (b : Bool) (state : String) :
    ((g.minimizing b).buildAutomaton state).2 = (g.buildAutomaton state).2 := by
  have hnfa := Nfa.wellFormed_ofRules (g.rules state)
  have haccepted : ((g.minimizing b).buildAutomaton state).1.dfa.acceptedKinds =
      (g.buildAutomaton state).1.dfa.acceptedKinds := by
    refine Ascending.ext (Ascending.pairwise_ofList _) (Ascending.pairwise_ofList _) fun kind => ?_
    simp only [buildAutomaton, rules_minimizing, Nfa.mem_acceptedKinds_pruned hnfa]
  have hreports (g : Grammar) : (g.buildAutomaton state).2 =
      (((g.rules state).map Nfa.Rule.kind).filter fun kind =>
        !(g.buildAutomaton state).1.dfa.acceptedKinds.contains kind).map
      (g.unreachableToken state (Nfa.ofRules (g.rules state)).determinize) := rfl
  rw [hreports, hreports, haccepted, rules_minimizing]
  rfl

theorem buildLexer_minimizing (g : Grammar) (b : Bool) :
    (g.minimizing b).buildLexer.2 = g.buildLexer.2 := by
  have hfaults : (g.minimizing b).definitionFault? = g.definitionFault? := by
    funext t
    rw [definitionFault?, definitionFault?, usablePattern_minimizing]
  have htokens : (g.minimizing b).tokens = g.tokens := rfl
  have hstates : (g.minimizing b).states = g.states := rfl
  have hreached : (g.minimizing b).checkStateReachability = g.checkStateReachability := rfl
  simp only [buildLexer, hfaults, htokens, hstates, hreached]
  split
  · simp only [List.flatMap_map, reports_minimizing]
  · rfl

/-- The reports on definitions that never win are those on the covered definitions of each lexical
state. Each names a definition that wins over it instead, unless nothing belongs to it, and they are
the same whether tables are minimized or not. -/
theorem unreachableTokens_exact {g : Grammar} {lexer : Lexer} (h : g.buildLexer.1 = some lexer) :
    ∃ (lost : String → List Nat) (winner : String → Nat → Option Nat),
      (∀ state ∈ g.states.names, g.Loses state (lost state) (winner state)) ∧
      g.buildLexer.2.filter (·.kind = .unreachableToken) =
        g.states.names.flatMap (fun state =>
          (lost state).map fun kind => g.coverReport state kind (winner state kind)) ∧
      ∀ minimize, (g.minimizing minimize).buildLexer.2 = g.buildLexer.2 := by
  choose lost hreports hloses using loses_buildAutomaton h
  refine ⟨lost, fun state => (Nfa.ofRules (g.rules state)).determinize.firstWinner?,
    fun state _ => hloses state, ?_, buildLexer_minimizing g⟩
  rw [filter_buildLexer h]
  simp only [hreports]

/-- The keyword is covered by the words, and nothing belongs to the last definition. -/
def coveredKeyword : Grammar :=
  let token (name : String) (kind : Nat) (pattern : Pattern) : TokenDef :=
    { TokenDef.eof with
      name := name, kind := kind, pattern := pattern, scope := .initial
      span := ⟨⟨kind, 0⟩, ⟨kind, 1⟩⟩ }
  { empty {} with
    tokens := #[.eof, token "Word" 1 (.plus (.charClass ⟨[.range 'a' 'z'], false⟩)),
      token "If" 2 (.literal "if"),
      token "Never" 3 (.charClass ⟨[.range (Char.ofNat 0) (Char.ofNat 0x10FFFF)], true⟩)]
    tokenNames := ⟨["EOF", "Word", "If", "Never"]⟩
    states := ⟨["DEFAULT"]⟩
    stateSpans := [.none]
    tokens_numbered := ((((Numbered.empty TokenDef.kind).push rfl).push rfl).push rfl).push rfl }

theorem unreachableTokens_coveredKeyword :
    coveredKeyword.Covered "DEFAULT" 2 ∧ ¬ coveredKeyword.Covered "DEFAULT" 1 := by
  have hsome : coveredKeyword.buildLexer.1.isSome := by decide +kernel
  obtain ⟨lexer, hlexer⟩ := Option.isSome_iff_exists.1 hsome
  have hspans : (coveredKeyword.buildLexer.2.filter (·.kind = .unreachableToken)).map (·.span) =
      [⟨⟨2, 0⟩, ⟨2, 1⟩⟩, ⟨⟨3, 0⟩, ⟨3, 1⟩⟩] := by decide +kernel
  obtain ⟨lost, winner, hloses, hreports, -⟩ := unreachableTokens_exact hlexer
  have hdefault := hloses "DEFAULT" List.mem_cons_self
  have hactive : coveredKeyword.activeTokens "DEFAULT" = [1, 2, 3] := by decide +kernel
  have hlost : lost "DEFAULT" = [2, 3] := by
    have hstates : coveredKeyword.states.names = ["DEFAULT"] := rfl
    rw [hreports, hstates, List.flatMap_singleton, List.map_map] at hspans
    have hsublist := List.mem_sublists.2 (hactive ▸ hdefault.sublist)
    have hunique : ∀ kinds ∈ [1, 2, 3].sublists,
        kinds.map (fun kind => (coveredKeyword.tokens[kind]?.map TokenDef.span).getD .none) =
          [⟨⟨2, 0⟩, ⟨2, 1⟩⟩, ⟨⟨3, 0⟩, ⟨3, 1⟩⟩] → kinds = [2, 3] := by decide +kernel
    exact hunique _ hsublist hspans
  rw [← hdefault.covered 2 (by simp [hactive]), ← hdefault.covered 1 (by simp [hactive]), hlost]
  decide

end Grammar
end PredictiveParsing
