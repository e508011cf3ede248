import Mathlib.Algebra.GroupWithZero.Nat
import PredictiveParsing.Proofs.Acceptance
import PredictiveParsing.Proofs.LetterSets

/-!
# Fragments match their patterns

A fragment is laid out in as many states as are set aside for it, all its edges stay below the end
of what is laid out, and its first state joins its last by the language of the pattern. Each way of
putting fragments together keeps this. Main statements: `realizes_fragment` and `mem_kinds_ofRules`.
-/
namespace PredictiveParsing.Nfa

open Pattern
open scoped Computability

variable {nfa : Nfa} {base bound : Nat}

def Holds (nfa : Nfa) (base : Nat) (states : List State) : Prop :=
  ∀ (i : Nat) s, states[i]? = some s → nfa.states[base + i]? = some s

theorem Holds.append {xs ys : List State} (h : nfa.Holds base (xs ++ ys)) :
    nfa.Holds base xs ∧ nfa.Holds (base + xs.length) ys := by
  refine ⟨fun i s hi => h i s ?_, fun i s hi => ?_⟩
  · rw [List.getElem?_append_left (List.getElem?_eq_some_iff.1 hi).1, hi]
  · rw [Nat.add_assoc]
    refine h _ s ?_
    rw [List.getElem?_append_right (Nat.le_add_right _ _), Nat.add_sub_cancel_left, hi]

theorem Holds.cons {s : State} {ss : List State} (h : nfa.Holds base (s :: ss)) :
    nfa.state base = s ∧ nfa.Holds (base + 1) ss := by
  have hsplit : nfa.Holds base ([s] ++ ss) := h
  have hfirst : nfa.states[base]? = some s := h 0 s rfl
  exact ⟨by rw [state, hfirst, Option.getD_some], hsplit.append.2⟩

structure State.Below (bound : Nat) (s : State) : Prop where
  silent : ∀ t ∈ s.silent, t < bound
  edge : ∀ e ∈ s.edges, e.2 < bound
  label : ∀ e ∈ s.edges, e.1.InAlphabet

theorem State.below_one {t : Nat} (h : t < bound) : State.Below bound { silent := [t] } :=
  ⟨by simpa using h, by simp, by simp⟩

/-- Laid out from anywhere, the states accept the words of `lang` up to the end. -/
structure Layout.Realizes (l : Layout) (lang : Language Nat) : Prop where
  pos : 0 < l.size
  length : ∀ base last, (l.states base last).length = l.size
  below : ∀ bound base last, base + l.size ≤ bound → last.Below bound →
    ∀ s ∈ l.states base last, s.Below bound
  joins : ∀ (nfa : Nfa) base last, nfa.Holds base (l.states base last) →
    nfa.Joins (nfa.state base) lang last

structure Continues (tail : Nat → Tail) (size : Nat) (lang : Language Nat) (last : State) :
    Prop where
  length : ∀ base, (tail base).states.length = size
  below : ∀ bound base, base + size ≤ bound → last.Below bound →
    (tail base).contents.Below bound ∧ ∀ s ∈ (tail base).states, s.Below bound
  joins : ∀ (nfa : Nfa) base, nfa.Holds base (tail base).states →
    nfa.Joins (tail base).contents lang last

namespace Layout

variable {l : Layout} {lang : Language Nat} (h : l.Realizes lang)

include h

theorem Realizes.before {tail : Nat → Tail} {size : Nat} {rest : Language Nat} {last : State}
    (htail : Continues tail size rest last) :
    Continues (fun base =>
      ⟨{ silent := [base] },
        l.states base (tail (base + l.size)).contents ++ (tail (base + l.size)).states⟩)
      (l.size + size) (lang * rest) last := by
  refine ⟨fun base => ?_, fun bound base hle hlast => ?_, fun nfa base hholds => ?_⟩
  · rw [List.length_append, h.length, htail.length]
  · obtain ⟨hcontents, hstates⟩ := htail.below bound (base + l.size) (by omega) hlast
    have hpos := h.pos
    refine ⟨State.below_one (by omega), fun s hs => ?_⟩
    rcases List.mem_append.1 hs with hs | hs
    · exact h.below bound base _ (by omega) hcontents s hs
    · exact hstates s hs
  · obtain ⟨hfirst, hrest⟩ := Holds.append hholds
    rw [h.length] at hrest
    exact (h.joins nfa base _ hfirst).step.trans (htail.joins nfa _ hrest)

theorem Realizes.copies {tail : Nat → Tail} {size : Nat} {rest : Language Nat} {last : State}
    (htail : Continues tail size rest last) (n : Nat) :
    Continues (l.copies tail n) (n * l.size + size) (lang ^ n * rest) last := by
  induction n with
  | zero =>
    rw [Nat.zero_mul, Nat.zero_add, pow_zero, one_mul]
    exact htail
  | succ n ih =>
    have hsize : (n + 1) * l.size + size = l.size + (n * l.size + size) := by
      rw [Nat.succ_mul]
      omega
    rw [hsize, pow_succ', mul_assoc]
    exact h.before ih

theorem Realizes.loop (last : State) : Continues (l.loop last) (l.size + 1) lang∗ last := by
  refine ⟨fun base => ?_, fun bound base hle hlast => ?_, fun nfa base hholds => ?_⟩
  · simp [Layout.loop, h.length]
  · have hpos := h.pos
    have hback : State.Below bound { silent := [base] } := State.below_one (by omega)
    refine ⟨hback, List.forall_mem_cons.2
      ⟨⟨List.forall_mem_cons.2 ⟨by omega, hlast.silent⟩, hlast.edge, hlast.label⟩, ?_⟩⟩
    exact h.below bound (base + 1) _ (by omega) hback
  · obtain ⟨hhub, hbody⟩ := Holds.cons hholds
    exact (Joins.hub hhub (h.joins nfa (base + 1) _ hbody)).step

theorem Realizes.length_optionals (exit n base : Nat) :
    (l.optionals exit n base).states.length = n * l.size := by
  induction n generalizing base with
  | zero => simp [optionals]
  | succ n ih =>
    rw [optionals, List.length_append, h.length, ih, Nat.succ_mul, Nat.add_comm]

theorem Realizes.below_optionals {exit : Nat} (hexit : exit < bound) {n base : Nat}
    (hle : base + n * l.size ≤ bound) :
    (l.optionals exit n base).contents.Below bound ∧
      ∀ s ∈ (l.optionals exit n base).states, s.Below bound := by
  induction n generalizing base with
  | zero => exact ⟨State.below_one hexit, by simp [optionals]⟩
  | succ n ih =>
    rw [Nat.succ_mul] at hle
    have hpos := h.pos
    have hrest : base + l.size + n * l.size ≤ bound := by omega
    obtain ⟨hcontents, hstates⟩ := ih hrest
    refine ⟨⟨by simp [optionals]; omega, by simp [optionals], by simp [optionals]⟩, fun s hs => ?_⟩
    rcases List.mem_append.1 hs with hs | hs
    · exact h.below bound base _ (by omega) hcontents s hs
    · exact hstates s hs

theorem Realizes.joins_optionals {exit : Nat} {n base : Nat}
    (hholds : nfa.Holds base (l.optionals exit n base).states) :
    nfa.Joins (l.optionals exit n base).contents (upTo lang n) (nfa.state exit) := by
  induction n generalizing base with
  | zero => exact (Joins.refl nfa _).step
  | succ n ih =>
    obtain ⟨hfirst, hrest⟩ := Holds.append hholds
    rw [h.length] at hrest
    exact ((h.joins nfa base _ hfirst).trans (ih hrest)).branch (Joins.refl nfa _).step

def repeatedSize (l : Layout) (min : Nat) : Option Nat → Nat
  | none => (min + 1) * l.size + 2
  | some max => (min + (max - min)) * l.size + 2

theorem Realizes.tail_optionals (n : Nat) (last : State) :
    Continues (fun base =>
      ⟨(l.optionals base n (base + 1)).contents, last :: (l.optionals base n (base + 1)).states⟩)
      (n * l.size + 1) (upTo lang n) last := by
  refine ⟨fun base => ?_, fun bound base hle hlast => ?_, fun nfa base hholds => ?_⟩
  · rw [List.length_cons, h.length_optionals]
  · have hexit : base < bound := by omega
    have hrest : base + 1 + n * l.size ≤ bound := by omega
    obtain ⟨hcontents, hstates⟩ := h.below_optionals hexit hrest
    exact ⟨hcontents, List.forall_mem_cons.2 ⟨hlast, hstates⟩⟩
  · obtain ⟨hexit, hrest⟩ := Holds.cons hholds
    have hjoins := h.joins_optionals hrest
    rwa [hexit] at hjoins

omit h in
theorem Realizes.resize {n m : Nat} {states : (base : Nat) → State → List State}
    (h : Layout.Realizes ⟨n, states⟩ lang) (heq : n = m) : Layout.Realizes ⟨m, states⟩ lang := by
  rwa [heq] at h

omit h in
theorem realizes_start {tail : State → Nat → Tail} {size : Nat}
    (htail : ∀ last, Continues (tail last) size lang last) :
    Layout.Realizes ⟨size + 1,
      fun base last => (tail last (base + 1)).contents :: (tail last (base + 1)).states⟩
      lang := by
  refine ⟨Nat.succ_pos _, fun base last => ?_, fun bound base last hle hlast => ?_,
    fun nfa base last hholds => ?_⟩
  · rw [List.length_cons, (htail last).length]
  · have hrest : base + 1 + size ≤ bound := by
      simp only at hle
      omega
    exact List.forall_mem_cons.2 ((htail last).below bound (base + 1) hrest hlast)
  · obtain ⟨hstart, hrest⟩ := Holds.cons hholds
    rw [hstart]
    exact (htail last).joins nfa (base + 1) hrest

theorem Realizes.repeated (min : Nat) (max : Option Nat) :
    Layout.Realizes ⟨l.repeatedSize min max, l.repeated min max⟩
      (repeatedLanguage lang min max) := by
  cases max with
  | none =>
    refine (realizes_start fun last => h.copies (h.loop last) min).resize ?_
    rw [repeatedSize, Nat.succ_mul]
    omega
  | some max =>
    refine (realizes_start fun last => h.copies (h.tail_optionals (max - min) last) min).resize ?_
    rw [repeatedSize, Nat.add_mul]
    omega

end Layout

variable {ignoreCase : Bool}

def fragmentLayout (ignoreCase : Bool) (p : Pattern) : Layout :=
  ⟨p.stateCount, fragment ignoreCase p⟩

def closedLanguage (ignoreCase : Bool) (p : Pattern) : Language Nat :=
  p.language ignoreCase fun _ => 0

theorem realizes_literal (cs : List Char) :
    Layout.Realizes ⟨cs.length + 1, fun base last => literalStates ignoreCase last base cs⟩
      (literalLanguage ignoreCase cs) := by
  induction cs with
  | nil =>
    refine ⟨Nat.one_pos, fun _ _ => rfl, fun bound base last _ hlast => ?_,
      fun nfa base last hholds => ?_⟩
    · simpa [literalStates] using hlast
    · rw [(Holds.cons hholds).1]
      exact Joins.refl nfa last
  | cons c cs ih =>
    refine ⟨Nat.succ_pos _, fun base last => ?_, fun bound base last hle hlast => ?_,
      fun nfa base last hholds => ?_⟩
    · exact congrArg (· + 1) (ih.length (base + 1) last)
    · simp only [List.length_cons] at hle
      have hletter : ∀ e ∈ [(letterSet ignoreCase c, base + 1)], e.1.InAlphabet := by
        simpa using inAlphabet_letterSet ignoreCase c
      refine List.forall_mem_cons.2 ⟨⟨by simp, by simp; omega, hletter⟩,
        ih.below bound (base + 1) last ?_ hlast⟩
      simp only
      omega
    · obtain ⟨hstart, hrest⟩ := Holds.cons hholds
      rw [hstart]
      exact (Joins.letter rfl fun w => by simp [mem_letterLanguage, contains_letterSet]).trans
        (ih.joins nfa (base + 1) last hrest)

theorem realizes_charClass (cls : CharClass) :
    (fragmentLayout ignoreCase (.charClass cls)).Realizes
      (letterLanguage ignoreCase cls.HasCode) := by
  refine ⟨Nat.two_pos, fun _ _ => rfl, fun bound base last hle hlast => ?_,
    fun nfa base last hholds => ?_⟩
  · have hle : base + 2 ≤ bound := hle
    have hset : ∀ e ∈ if (classSet ignoreCase cls).isEmpty then []
        else [(classSet ignoreCase cls, base + 1)], e = (classSet ignoreCase cls, base + 1) := by
      intro e he
      split at he
      · cases he
      · exact List.mem_singleton.1 he
    refine List.forall_mem_cons.2 ⟨⟨by simp, fun e he => ?_, fun e he => ?_⟩, by simpa using hlast⟩
    · rw [hset e he]
      omega
    · rw [hset e he]
      exact inAlphabet_classSet ignoreCase cls
  · obtain ⟨hstart, hrest⟩ := Holds.cons hholds
    have hlast := (Holds.cons hrest).1
    rw [hstart]
    cases hempty : (classSet ignoreCase cls).isEmpty with
    | true =>
      have hnone : letterLanguage ignoreCase cls.HasCode = 0 := by
        ext w
        have hranges : (classSet ignoreCase cls).ranges = [] := by
          simpa [CharSet.isEmpty] using hempty
        simp only [letterLanguage, Language.notMem_zero, iff_false]
        rintro ⟨d, _, hd⟩
        have hcontains := contains_classSet.2 hd
        simp [CharSet.contains_iff, hranges] at hcontains
      rw [hnone]
      exact Joins.dead last rfl rfl rfl
    | false => exact Joins.letter hlast fun w => by simp [mem_letterLanguage, contains_classSet]

theorem realizes_ref (name : String) : (fragmentLayout ignoreCase (.ref name)).Realizes 0 := by
  refine ⟨Nat.two_pos, fun _ _ => rfl, fun bound base last _ hlast => ?_,
    fun nfa base last hholds => ?_⟩
  · exact List.forall_mem_cons.2 ⟨⟨by simp, by simp, by simp⟩, by simpa using hlast⟩
  · rw [(Holds.cons hholds).1]
    exact Joins.dead last rfl rfl rfl

section

variable {ps : List Pattern}
  (h : ∀ p ∈ ps, (fragmentLayout ignoreCase p).Realizes (closedLanguage ignoreCase p))

include h

theorem continues_sequenceTail (last : State) :
    Continues (fun base => sequenceTail ignoreCase ps base last) (stateCounts ps)
      (sequenceLanguage ignoreCase (fun _ => 0) ps) last := by
  induction ps with
  | nil =>
    exact ⟨fun _ => rfl, fun _ _ _ hlast => ⟨hlast, by simp [sequenceTail]⟩,
      fun nfa _ _ => Joins.refl nfa last⟩
  | cons p ps ih =>
    obtain ⟨hp, hps⟩ := List.forall_mem_cons.1 h
    exact hp.before (ih hps)

theorem length_branches (exit base : Nat) :
    (branches ignoreCase ps exit base).2.length = stateCounts ps := by
  induction ps generalizing base with
  | nil => rfl
  | cons p ps ih =>
    obtain ⟨hp, hps⟩ := List.forall_mem_cons.1 h
    have hlength : (fragment ignoreCase p base { silent := [exit] }).length = p.stateCount :=
      hp.length _ _
    rw [branches, List.length_append, hlength, ih hps, stateCounts]

theorem below_branches {exit base bound : Nat} (hexit : exit < bound)
    (hle : base + stateCounts ps ≤ bound) :
    (∀ t ∈ (branches ignoreCase ps exit base).1, t < bound) ∧
      ∀ s ∈ (branches ignoreCase ps exit base).2, s.Below bound := by
  induction ps generalizing base with
  | nil => simp [branches]
  | cons p ps ih =>
    obtain ⟨hp, hps⟩ := List.forall_mem_cons.1 h
    have hpos : 0 < p.stateCount := hp.pos
    rw [stateCounts] at hle
    have hrest : base + p.stateCount + stateCounts ps ≤ bound := by omega
    obtain ⟨hstarts, hstates⟩ := ih hps hrest
    have hfirst : base + p.stateCount ≤ bound := by omega
    rw [branches]
    refine ⟨List.forall_mem_cons.2 ⟨by omega, hstarts⟩, fun s hs => ?_⟩
    rcases List.mem_append.1 hs with hs | hs
    · exact hp.below bound base _ hfirst (State.below_one hexit) s hs
    · exact hstates s hs

theorem joins_branches {exit base : Nat}
    (hholds : nfa.Holds base (branches ignoreCase ps exit base).2) :
    nfa.Joins { silent := (branches ignoreCase ps exit base).1 }
      (choiceLanguage ignoreCase (fun _ => 0) ps)
      (nfa.state exit) := by
  induction ps generalizing base with
  | nil => exact Joins.dead _ rfl rfl rfl
  | cons p ps ih =>
    obtain ⟨hp, hps⟩ := List.forall_mem_cons.1 h
    rw [branches] at hholds ⊢
    obtain ⟨hfirst, hrest⟩ := Holds.append hholds
    have hlength : (fragment ignoreCase p base { silent := [exit] }).length = p.stateCount :=
      hp.length _ _
    rw [hlength] at hrest
    have hjoins := (hp.joins nfa base _ hfirst).trans (Joins.refl nfa (nfa.state exit)).step
    rw [mul_one] at hjoins
    exact hjoins.branch (ih hps hrest)

theorem realizes_alt :
    (fragmentLayout ignoreCase (.alt ps)).Realizes (choiceLanguage ignoreCase (fun _ => 0) ps) := by
  refine ⟨Nat.succ_pos _, fun base last => ?_, fun bound base last hle hlast => ?_,
    fun nfa base last hholds => ?_⟩
  · exact congrArg (· + 2) (length_branches h (base + 1) (base + 2))
  · have hle : base + (stateCounts ps + 2) ≤ bound := hle
    have hexit : base + 1 < bound := by omega
    have hrest : base + 2 + stateCounts ps ≤ bound := by omega
    obtain ⟨hstarts, hstates⟩ := below_branches h hexit hrest
    refine List.forall_mem_cons.2 ⟨⟨hstarts, by simp, by simp⟩, ?_⟩
    exact List.forall_mem_cons.2 ⟨hlast, hstates⟩
  · obtain ⟨hstart, hrest⟩ := Holds.cons hholds
    obtain ⟨hexit, hstates⟩ := Holds.cons hrest
    have hjoins := joins_branches h hstates
    rwa [hexit, ← hstart] at hjoins

end

mutual

theorem realizes_fragment (ignoreCase : Bool) (p : Pattern) :
    (fragmentLayout ignoreCase p).Realizes (closedLanguage ignoreCase p) := by
  match p with
  | .literal text => exact realizes_literal text.toList
  | .charClass cls => exact realizes_charClass cls
  | .seq items =>
    exact Layout.realizes_start (continues_sequenceTail (realizes_fragments ignoreCase items))
  | .alt items => exact realizes_alt (realizes_fragments ignoreCase items)
  | .star body =>
    refine ((realizes_fragment ignoreCase body).repeated 0 none).resize ?_
    simp [Layout.repeatedSize, fragmentLayout, stateCount]
  | .plus body =>
    refine ((realizes_fragment ignoreCase body).repeated 1 none).resize ?_
    simp [Layout.repeatedSize, fragmentLayout, stateCount]
  | .opt body =>
    refine ((realizes_fragment ignoreCase body).repeated 0 (some 1)).resize ?_
    simp [Layout.repeatedSize, fragmentLayout, stateCount]
  | .rep body min max =>
    refine ((realizes_fragment ignoreCase body).repeated min max).resize ?_
    cases max <;> rfl
  | .ref name => exact realizes_ref name

theorem realizes_fragments (ignoreCase : Bool) (ps : List Pattern) :
    ∀ p ∈ ps, (fragmentLayout ignoreCase p).Realizes (closedLanguage ignoreCase p) := by
  match ps with
  | [] => simp
  | p :: ps =>
    exact List.forall_mem_cons.2 ⟨realizes_fragment ignoreCase p, realizes_fragments ignoreCase ps⟩

end

theorem length_fragment (ignoreCase : Bool) (p : Pattern) (base : Nat) (last : State) :
    (fragment ignoreCase p base last).length = p.stateCount :=
  (realizes_fragment ignoreCase p).length base last

def rulesSize (rules : List Rule) : Nat := (rules.map fun r => r.pattern.stateCount).sum

theorem length_ruleStates (rules : List Rule) (base : Nat) :
    (ruleStates rules base).2.length = rulesSize rules := by
  induction rules generalizing base with
  | nil => rfl
  | cons r rs ih =>
    rw [ruleStates, List.length_append, length_fragment, ih]
    simp [rulesSize]

theorem below_ruleStates {rules : List Rule} {base bound : Nat}
    (hle : base + rulesSize rules ≤ bound) :
    (∀ t ∈ (ruleStates rules base).1, t < bound) ∧
      ∀ s ∈ (ruleStates rules base).2, s.Below bound := by
  induction rules generalizing base with
  | nil => simp [ruleStates]
  | cons r rs ih =>
    have hr := realizes_fragment r.ignoreCase r.pattern
    have hpos : 0 < r.pattern.stateCount := hr.pos
    have hsize : rulesSize (r :: rs) = r.pattern.stateCount + rulesSize rs := by simp [rulesSize]
    have hfirst : base + r.pattern.stateCount ≤ bound := by omega
    have hrest : base + r.pattern.stateCount + rulesSize rs ≤ bound := by omega
    obtain ⟨hstarts, hstates⟩ := ih hrest
    rw [ruleStates]
    refine ⟨List.forall_mem_cons.2 ⟨by omega, hstarts⟩, fun s hs => ?_⟩
    rcases List.mem_append.1 hs with hs | hs
    · exact hr.below bound base _ hfirst ⟨by simp, by simp, by simp⟩ s hs
    · exact hstates s hs

theorem Joins.accepts_iff {s : State} {l : Language Nat} {k kind : Nat} {w : List Nat}
    (h : nfa.Joins s l { accept := some k }) :
    (∃ n, Accepts nfa kind n s w) ↔ k = kind ∧ w ∈ l := by
  constructor
  · rintro ⟨n, hn⟩
    obtain ⟨m, -, u, hu, v, rfl, hv⟩ := h.sound kind n w hn
    cases hv with
    | here hkind => exact ⟨Option.some.inj hkind, by rwa [List.append_nil]⟩
    | silent ht => cases ht
    | edge he => cases he
  · rintro ⟨rfl, hw⟩
    obtain ⟨n, hn⟩ := h.complete k 0 w [] hw (.here rfl)
    exact ⟨n, by rwa [List.append_nil] at hn⟩

theorem accepts_ruleStates {rules : List Rule} {base kind : Nat}
    (hholds : nfa.Holds base (ruleStates rules base).2)
    {w : List Nat} : (∃ t ∈ (ruleStates rules base).1, ∃ n, Accepts nfa kind n (nfa.state t) w) ↔
      ∃ r ∈ rules, r.kind = kind ∧ w ∈ closedLanguage r.ignoreCase r.pattern := by
  induction rules generalizing base with
  | nil => simp [ruleStates]
  | cons r rs ih =>
    have hr := realizes_fragment r.ignoreCase r.pattern
    rw [ruleStates] at hholds ⊢
    obtain ⟨hfirst, hrest⟩ := Holds.append hholds
    rw [length_fragment] at hrest
    rw [List.exists_mem_cons_iff, List.exists_mem_cons_iff, ih hrest,
      (hr.joins nfa base _ hfirst).accepts_iff]

section

variable (rules : List Rule)

theorem holds_ofRules :
    (ofRules rules).Holds 0 ({ silent := (ruleStates rules 1).1 } :: (ruleStates rules 1).2) := by
  intro i s hi
  rw [Nat.zero_add, ofRules, List.getElem?_toArray]
  exact hi

theorem size_ofRules : (ofRules rules).size = rulesSize rules + 1 := by
  rw [size, ofRules, List.size_toArray, List.length_cons, length_ruleStates]

theorem below_state (q : Nat) : ((ofRules rules).state q).Below (rulesSize rules + 1) := by
  have hle : 1 + rulesSize rules ≤ rulesSize rules + 1 := by omega
  obtain ⟨hstarts, hstates⟩ := below_ruleStates hle
  rw [state, ofRules, List.getElem?_toArray]
  cases hq : ({ silent := (ruleStates rules 1).1 } :: (ruleStates rules 1).2 : List State)[q]? with
  | none => exact ⟨by simp, by simp, by simp⟩
  | some s =>
    rcases List.mem_cons.1 (List.mem_of_getElem? hq) with rfl | hs
    · exact ⟨hstarts, by simp, by simp⟩
    · exact hstates s hs

theorem wellFormed_ofRules : (ofRules rules).WellFormed := by
  refine ⟨?_, fun q => ?_, fun q => ?_⟩
  · rw [size_ofRules]
    exact Nat.succ_pos _
  · rw [size_ofRules]
    exact (below_state rules q).silent
  · rw [size_ofRules]
    exact (below_state rules q).edge

theorem mem_kinds_ofRules {kind : Nat} {w : List Nat} :
    kind ∈ (ofRules rules).kinds ((ofRules rules).runFrom (ofRules rules).startSet w) ↔
      ∃ r ∈ rules, r.kind = kind ∧ w ∈ closedLanguage r.ignoreCase r.pattern := by
  have hwf := wellFormed_ofRules rules
  have hstart : ∀ q ∈ [0], q < (ofRules rules).size := by simpa using hwf.start
  obtain ⟨hzero, hstates⟩ := Holds.cons (holds_ofRules rules)
  rw [startSet, mem_kinds_runFrom hwf hstart, ← accepts_ruleStates hstates]
  simp only [List.mem_singleton, exists_eq_left, hzero]
  constructor
  · rintro ⟨n, hn⟩
    obtain ⟨m, -, t, ht, hm⟩ := accepts_silent_iff.1 hn
    exact ⟨t, ht, m, hm⟩
  · rintro ⟨t, ht, n, hn⟩
    exact ⟨n + 1, .silent ht hn⟩

end

end PredictiveParsing.Nfa
