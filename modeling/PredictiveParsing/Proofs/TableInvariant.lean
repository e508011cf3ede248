import PredictiveParsing.Proofs.DefinitionFaults
import PredictiveParsing.Proofs.DiscoveryOrder
import PredictiveParsing.Proofs.ReachableModes

/-!
# What holds of every table

Pruning drops states and transitions and then numbers what is left. It does the same as numbering
all states of an automaton that has only the transitions to live states, so pruned and minimized
tables alike are numbered in the order of discovery. As no public definition matches the empty text,
the start does not accept. Main statement: `tidy_buildLexer`.
-/
namespace PredictiveParsing

open Exploration Recognizer

namespace Dfa

variable {d : Dfa} {keep : Nat → Bool} {start q : Nat}

/-- Every state but the start is found from one before it, and the states are in the order in which
going through them, and through the transitions of each, comes upon them first. -/
structure BreadthFirst (d : Dfa) : Prop where
  found : ∀ q, 0 < q → q < d.size → ∃ p < q, ∃ t ∈ d.transitions p, t.target = q
  earlier : ∀ q q', 0 < q → q < q' → q' < d.size → ∀ p', ∀ t' ∈ d.transitions p', t'.target = q' →
    ∃ p, ∃ t ∈ d.transitions p, t.target = q ∧ (p < p' ∨ p = p' ∧ t.lo < t'.lo)

structure Tidy (d : Dfa) : Prop where
  nonempty : 0 < d.size
  start : d.accept? 0 = none
  ordered : ∀ q, Ordered (d.transitions q)
  joined : ∀ q, Joined (d.transitions q)
  inRange : ∀ q, ∀ t ∈ d.transitions q, t.target < d.size
  reached : ∀ q < d.size, ∃ w, d.run? 0 w = some q
  numbered : d.BreadthFirst
  useful : ∀ q, 0 < q → q < d.size → ∃ w kind, d.verdict q w = some kind

theorem exists_lo_lt {p q q' : Nat} {t' : Transition} (h : Ordered (d.transitions p))
    (hq : q ∈ d.targets p) (hlt : (d.targets p).idxOf q < (d.targets p).idxOf q')
    (ht' : t' ∈ d.transitions p) (htarget : t'.target = q') :
    ∃ t ∈ d.transitions p, t.target = q ∧ t.lo < t'.lo := by
  have hget : (d.targets p)[(d.targets p).idxOf q]? = some q := by
    rw [List.getElem?_eq_getElem (List.idxOf_lt_length_of_mem hq), List.getElem_idxOf]
  obtain ⟨t, ht, htarget'⟩ := Option.map_eq_some_iff.1 (List.getElem?_map.symm.trans hget)
  obtain ⟨hi, rfl⟩ := List.getElem?_eq_some_iff.1 ht
  obtain ⟨j, hj, rfl⟩ := List.mem_iff_getElem.1 ht'
  have hle : (d.targets p).idxOf q' ≤ j := by
    by_contra hnot
    have hother := List.not_of_lt_findIdx (Nat.lt_of_not_le hnot)
    simp [targets, htarget] at hother
  have hapart := List.pairwise_iff_getElem.1 h.apart _ j hi hj (by omega)
  have hnonempty := h.nonempty _ (List.getElem_mem hi)
  exact ⟨_, List.getElem_mem hi, htarget', by omega⟩

theorem lt_of_mem_transitions {t : Transition} (ht : t ∈ d.transitions q) : q < d.size := by
  by_contra hge
  rw [transitions_of_size_le (Nat.le_of_not_lt hge)] at ht
  cases ht

theorem breadthFirst_of_order (h : d.WellFormed)
    (horder : d.order 0 (fun _ => true) = List.range d.size) : d.BreadthFirst := by
  rw [order_all] at horder
  have hfound := foundInOrder_reachable horder
  refine ⟨?_, ?_⟩
  · intro q hpos hlt
    obtain ⟨p, -, hpq, hmem⟩ := hfound.found q hpos hlt
    obtain ⟨t, ht, htarget⟩ := List.mem_map.1 hmem
    exact ⟨p, hpq, t, ht, htarget⟩
  · intro q q' hpos hlt hlt' p' t' ht' htarget
    have hmem' : q' ∈ d.targets p' := List.mem_map.2 ⟨t', ht', htarget⟩
    obtain ⟨p, hle, hmem, hfirst⟩ :=
      hfound.earlier q q' hpos hlt hlt' p' (lt_of_mem_transitions ht') hmem'
    rcases Nat.lt_or_eq_of_le hle with hpp' | rfl
    · obtain ⟨t, ht, htarget⟩ := List.mem_map.1 hmem
      exact ⟨p, t, ht, htarget, .inl hpp'⟩
    · obtain ⟨t, ht, htarget, hlo⟩ := exists_lo_lt (h.ordered p) hmem (hfirst rfl) ht' htarget
      exact ⟨p, t, ht, htarget, .inr ⟨rfl, hlo⟩⟩

def restrict (d : Dfa) (keep : Nat → Bool) : Dfa :=
  ⟨d.states.map fun s => { s with transitions := s.transitions.filter fun t => keep t.target }⟩

@[simp] theorem size_restrict (d : Dfa) (keep : Nat → Bool) : (d.restrict keep).size = d.size := by
  simp [restrict, size]

@[simp] theorem transitions_restrict (d : Dfa) (keep : Nat → Bool) (q : Nat) :
    (d.restrict keep).transitions q = (d.transitions q).filter fun t => keep t.target := by
  rw [restrict, transitions, transitions, Array.getElem?_map]
  cases d.states[q]? <;> rfl

@[simp] theorem accept?_restrict (d : Dfa) (keep : Nat → Bool) (q : Nat) :
    (d.restrict keep).accept? q = d.accept? q := by
  rw [restrict, accept?, accept?, Array.getElem?_map]
  cases d.states[q]? <;> rfl

theorem wellFormed_restrict (h : d.WellFormed) (keep : Nat → Bool) :
    (d.restrict keep).WellFormed := by
  refine ⟨?_, ?_⟩
  · intro q
    rw [transitions_restrict]
    exact ⟨(h.ordered q).apart.filter _, fun t ht => (h.ordered q).nonempty t (List.mem_of_mem_filter ht)⟩
  · intro q t ht
    rw [transitions_restrict] at ht
    rw [size_restrict]
    exact h.inRange q t (List.mem_of_mem_filter ht)

theorem order_restrict (d : Dfa) (start : Nat) (keep : Nat → Bool) :
    (d.restrict keep).order start (fun _ => true) = d.order start keep := by
  have htargets : (d.restrict keep).targets = fun q => (d.targets q).filter keep := by
    funext q
    rw [targets, transitions_restrict, targets, List.filter_map]
    rfl
  rw [order_all, htargets, size_restrict, order]

/-- To drop states while numbering is to drop the transitions to them before. -/
theorem renumber_eq_restrict (d : Dfa) (start : Nat) (keep : Nat → Bool) :
    d.renumber start keep = (d.restrict keep).renumberAll start := by
  rw [renumberAll, renumber_eq, renumber_eq, order_restrict]
  congr 2
  apply List.map_congr_left
  intro q _
  rw [transitions_restrict, accept?_restrict, retarget, retarget, List.filterMap_filter]
  congr 2
  apply List.filterMap_congr
  intro t _
  simp only [newNumber, order_restrict, if_true]
  split <;> rfl

theorem order_renumber (h : d.WellFormed) (hstart : start < d.size)
    (hjoined : ∀ q, Joined (d.transitions q)) :
    (d.renumber start keep).order 0 (fun _ => true) = List.range (d.renumber start keep).size := by
  rw [renumber_eq_restrict]
  apply order_renumberAll (wellFormed_restrict h keep)
  · rwa [size_restrict]
  · intro q
    rw [transitions_restrict]
    exact (hjoined q).filter _

theorem joined_renumber (h : d.WellFormed) (q : Nat) :
    Joined ((d.renumber start keep).transitions q) := by
  cases hq : (d.order start keep)[q]? with
  | none =>
    rw [renumber_eq, transitions_map, hq]
    exact .nil
  | some p =>
    rw [transitions_renumber hq]
    exact joined_retarget (h.ordered p) _

structure Arranged (d : Dfa) : Prop where
  wellFormed : d.WellFormed
  nonempty : 0 < d.size
  joined : ∀ q, Joined (d.transitions q)
  trim : d.Trim
  order : d.order 0 (fun _ => true) = List.range d.size

theorem Canonical.arranged (h : d.Canonical) : d.Arranged :=
  ⟨h.wellFormed, h.nonempty, h.joined, h.trim, h.order⟩

theorem arranged_prune (h : d.WellFormed) (hsize : 0 < d.size)
    (hjoined : ∀ q, Joined (d.transitions q)) : d.prune.Arranged where
  wellFormed := wellFormed_prune h
  nonempty := size_prune_pos d
  joined := joined_renumber h
  trim := trim_prune h hsize
  order := order_renumber h hsize hjoined

theorem Arranged.tidy (h : d.Arranged) (hstart : d.accept? 0 = none) : d.Tidy := by
  have hnumbered := breadthFirst_of_order h.wellFormed h.order
  refine ⟨h.nonempty, hstart, h.wellFormed.ordered, h.joined, h.wellFormed.inRange, ?_, hnumbered,
    ?_⟩
  · intro q hq
    have hmem : q ∈ d.order 0 (fun _ => true) := by rwa [h.order, List.mem_range]
    exact exists_run?_of_reaches h.wellFormed ((mem_order h.wellFormed h.nonempty).1 hmem)
  · intro q hpos hlt
    obtain ⟨p, -, t, ht, rfl⟩ := hnumbered.found q hpos hlt
    obtain ⟨w, hw⟩ := h.trim p t ht
    rw [verdict_recognizer] at hw
    exact ⟨w, Option.isSome_iff_exists.1 hw⟩

end Dfa

theorem Nfa.joined_determinize (nfa : Nfa) (q : Nat) :
    Dfa.Joined (nfa.determinize.dfa.transitions q) := by
  cases hq : nfa.allSubsets[q]? with
  | none =>
    rw [determinize_eq, Dfa.transitions_map, hq]
    exact .nil
  | some qs =>
    rw [transitions_determinize hq]
    exact Dfa.joined_merged (ordered_found nfa qs)

namespace Grammar

variable {g : Grammar} {lexer : Lexer} {state : String}

theorem arranged_buildAutomaton (g : Grammar) (state : String) :
    (g.buildAutomaton state).1.dfa.Arranged := by
  have hdfa := Nfa.wellFormed_determinize (Nfa.wellFormed_ofRules (g.rules state))
  have hpruned := Dfa.arranged_prune hdfa (Nfa.size_determinize_pos _) (Nfa.joined_determinize _)
  simp only [buildAutomaton]
  split
  · exact (Dfa.canonical_minimize hpruned.wellFormed hpruned.nonempty hpruned.trim).arranged
  · exact hpruned

theorem Inlines.fault?_eq_none {p q : Pattern} (h : g.Inlines p q) (hfaultless : g.Faultless)
    (hp : p.fault? = none) : q.fault? = none := by
  induction h with
  | literal | charClass => exact hp
  | seq h ih | alt h ih =>
    rw [Pattern.fault?, Pattern.firstFault?_eq_none_iff, List.forall_mem_map] at hp ⊢
    exact fun pair hpair => ih pair hpair (hp pair hpair)
  | star _ ih | plus _ ih | opt _ ih => exact ih hp
  | rep _ ih =>
    rw [Pattern.fault?] at hp ⊢
    split at hp
    · cases hp
    · exact ih hp
  | ref hname _ ih => exact ih (hfaultless _ (tokenKind?_of_referent? hname).2)

theorem not_lexesAs_nil (h : g.buildLexer.1 = some lexer) (kind : Nat) :
    ¬ g.LexesAs state [] kind := by
  intro hlexes
  obtain ⟨hactive, t, ht, hmatches⟩ := hlexes
  obtain ⟨t', ht', hpublic⟩ := exists_public_of_mem_activeTokens hactive
  obtain rfl := Option.some.inj (ht.symm.trans ht')
  have hmem := Array.mem_of_getElem? ht
  have hkind : t.kind ≠ eofKind := by
    rw [kind_eq ht]
    exact ne_eofKind_of_mem_activeTokens hactive
  obtain ⟨q, hq⟩ := exists_usablePattern h hmem hkind
  obtain ⟨hfault, hinlined⟩ := fault?_of_usablePattern hq
  have hinlines := inlines_of_inlined hinlined
  have hfaultless := faultless_of_buildLexer h
  have hnil := (mem_inlined_iff hfaultless hfault hinlined).2 (Pattern.matches_iff_spells.1 hmatches)
  have hempty := (Pattern.matchesEmpty_iff_nil_mem hinlines.references_eq_nil
    (hinlines.fault?_eq_none hfaultless hfault)).2 hnil
  exact not_unusable_of_usablePattern hmem hq (.inr (.inr (.inr ⟨hpublic, q, hinlines, hempty⟩)))

theorem accept?_buildAutomaton_start (h : g.buildLexer.1 = some lexer) (state : String) :
    (g.buildAutomaton state).1.dfa.accept? 0 = none :=
  (verdict_eq_none_iff (w := []) h).2 (not_lexesAs_nil h)

theorem exists_active_of_accept? (h : g.buildLexer.1 = some lexer) {q kind : Nat}
    (hq : (g.buildAutomaton state).1.dfa.accept? q = some kind) :
    ∃ t ∈ g.tokens, t.kind = kind ∧ t.isActiveIn state g.initialState = true := by
  obtain ⟨w, hw⟩ := (Nfa.mem_acceptedKinds_pruned (Nfa.wellFormed_ofRules _) _).1
    (Dfa.mem_acceptedKinds.2 ⟨q, hq⟩)
  rw [Nfa.lowestKind?, Ascending.head?_eq_some_iff (Nfa.pairwise_kinds _ _),
    mem_kinds_iff_spelledAs h] at hw
  obtain ⟨t, ht, hkind⟩ := List.mem_map.1 hw.1.1
  obtain ⟨hmem, hactive⟩ := List.mem_filter.1 ht
  exact ⟨t, Array.mem_toList_iff.1 hmem, hkind, hactive⟩

/-- The table of every lexical state is tidy, minimized or not, and accepts nothing but definitions
that are active in that state. -/
theorem tidy_buildLexer (h : g.buildLexer.1 = some lexer) :
    ∀ a ∈ lexer.automata, a.dfa.Tidy ∧
      ∀ q kind, a.dfa.accept? q = some kind →
        ∃ t ∈ g.tokens, t.kind = kind ∧ t.isActiveIn a.name g.initialState = true := by
  rw [lexer_eq h]
  intro a ha
  obtain ⟨state, -, rfl⟩ := List.mem_map.1 ha
  constructor
  · exact (arranged_buildAutomaton g state).tidy (accept?_buildAutomaton_start h state)
  · intro q kind hq
    exact exists_active_of_accept? h hq

/-- The tables of a keyword and a word, of which minimization joins two states. -/
theorem tidy_buildLexer_wordGrammar :
    (∃ lexer a, wordGrammar.buildLexer.1 = some lexer ∧ lexer.automata = [a] ∧ a.dfa.size = 4 ∧
      a.dfa.Tidy) ∧
    ∃ lexer a, (wordGrammar.minimizing false).buildLexer.1 = some lexer ∧ lexer.automata = [a] ∧
      a.dfa.size = 5 ∧ a.dfa.Tidy := by
  have htable {g : Grammar} {n : Nat}
      (hsizes : (g.buildLexer.1.map fun l => l.automata.map fun a => a.dfa.size) = some [n]) :
      ∃ lexer a, g.buildLexer.1 = some lexer ∧ lexer.automata = [a] ∧ a.dfa.size = n ∧
        a.dfa.Tidy := by
    obtain ⟨lexer, hlexer, hsizes⟩ := Option.map_eq_some_iff.1 hsizes
    obtain ⟨a, hautomata, hsize⟩ := List.map_eq_singleton_iff.1 hsizes
    have htidy := tidy_buildLexer hlexer a (by simp [hautomata])
    exact ⟨lexer, a, hlexer, hautomata, hsize, htidy.1⟩
  constructor
  · exact htable (by decide +kernel)
  · exact htable (by decide +kernel)

end Grammar
end PredictiveParsing
