import Mathlib.Data.Finset.Card
import Mathlib.Data.Finset.Range
import Mathlib.Data.List.Chain
import Mathlib.Data.List.TakeWhile
import PredictiveParsing.Grammar.Validation
import PredictiveParsing.Proofs.Derivation
import PredictiveParsing.Sets.Basic

/-!
# What the search for left recursion finds

The search records the part of its path that a step back closes, and such a part is a cycle. When a
production is finished, each of its steps leads to one that was finished before it, or the
production was recorded. So of the productions on a cycle, the one finished first is recorded, and
no cycle is missed altogether. But a production that is on a cycle only by way of one finished
already is not recorded. Main statement: `leftRecursive_meets_cycles`.
-/
namespace PredictiveParsing

namespace LeftRecursion

open Relation

variable {edges : Nat → List Nat} {count fuel p q : Nat} {path older : List Nat} {s s' : Search}
  {cycles : List (List Nat)}

def Leads (edges : Nat → List Nat) (p q : Nat) : Prop := q ∈ edges p

/-- One can go on within the cycle from each member, and from each member to all the others. In the
order of the members one comes from the first back to the first. -/
structure Circular (edges : Nat → List Nat) (cycle : List Nat) : Prop where
  next : ∀ p ∈ cycle, ∃ q ∈ cycle, Leads edges p q
  connected : ∀ p ∈ cycle, ∀ q ∈ cycle, ReflTransGen (Leads edges) p q
  closes : ∃ first rest, cycle = first :: rest ∧ (cycle ++ [first]).IsChain (Leads edges)

theorem Circular.returns {cycle : List Nat} (h : Circular edges cycle) (hp : p ∈ cycle) :
    TransGen (Leads edges) p p := by
  obtain ⟨q, hq, hstep⟩ := h.next p hp
  exact TransGen.head' hstep (h.connected q hq p hp)

structure IsPath (edges : Nat → List Nat) (count : Nat) (path : List Nat) : Prop where
  chain : path.IsChain (Function.swap (Leads edges))
  nodup : path.Nodup
  lt : ∀ p ∈ path, p < count

theorem IsPath.length_le (h : IsPath edges count path) : path.length ≤ count := by
  rw [← List.toFinset_card_of_nodup h.nodup, ← Finset.card_range count]
  refine Finset.card_le_card fun p hp => ?_
  exact Finset.mem_range.2 (h.lt p (List.mem_toFinset.1 hp))

theorem IsPath.cons (h : IsPath edges count (p :: path)) (hq : q ∈ edges p) (hlt : q < count)
    (hnew : q ∉ p :: path) : IsPath edges count (q :: p :: path) where
  chain := List.isChain_cons_cons.2 ⟨hq, h.chain⟩
  nodup := List.nodup_cons.2 ⟨hnew, h.nodup⟩
  lt := List.forall_mem_cons.2 ⟨hlt, h.lt⟩

theorem reaches_of_chain (h : path.IsChain (Function.swap (Leads edges))) :
    path.Pairwise (Function.swap (ReflTransGen (Leads edges))) := by
  have hweak : path.IsChain (Function.swap (ReflTransGen (Leads edges))) :=
    h.imp fun _ _ hstep => ReflTransGen.single hstep
  exact hweak.pairwise

/-- The part of a path that a step from its latest production back to an earlier one closes. -/
theorem circular_of_chain {segment : List Nat}
    (hchain : (segment ++ [q]).IsChain (Function.swap (Leads edges)))
    (hhead : (segment ++ [q]).head? = some p) (hback : q ∈ edges p) :
    Circular edges (segment ++ [q]).reverse := by
  have hpairs := reaches_of_chain hchain
  have hlatest : ∀ m ∈ segment ++ [q], ReflTransGen (Leads edges) m p := by
    intro m hm
    obtain ⟨rest, hrest⟩ := List.head?_eq_some_iff.1 hhead
    rw [hrest] at hm hpairs
    rcases List.mem_cons.1 hm with rfl | hm
    · exact .refl
    · exact (List.pairwise_cons.1 hpairs).1 m hm
  have hearliest : ∀ m ∈ segment ++ [q], ReflTransGen (Leads edges) q m := by
    intro m hm
    rcases List.mem_append.1 hm with hm | hm
    · exact (List.pairwise_append.1 hpairs).2.2 m hm q List.mem_cons_self
    · rw [List.mem_singleton.1 hm]
  refine ⟨?_, ?_, q, segment.reverse, by simp, ?_⟩
  · intro m hm
    simp only [List.mem_reverse] at hm ⊢
    obtain ⟨later, earlier, hsplit⟩ := List.append_of_mem hm
    rcases List.eq_nil_or_concat later with rfl | ⟨later, n, rfl⟩
    · -- the latest production steps back to the earliest
      rw [hsplit, List.nil_append, List.head?_cons, Option.some.injEq] at hhead
      exact ⟨q, by simp, hhead ▸ hback⟩
    · rw [hsplit, List.concat_eq_append, List.append_assoc] at hchain
      have hstep : Leads edges m n := (List.isChain_append_cons_cons.1 hchain).2.1
      exact ⟨n, by simp [hsplit], hstep⟩
  · intro m hm n hn
    simp only [List.mem_reverse] at hm hn
    have hstep : ReflTransGen (Leads edges) p q := ReflTransGen.single hback
    exact (hlatest m hm).trans (hstep.trans (hearliest n hn))
  · rw [List.isChain_append]
    refine ⟨List.isChain_reverse.2 hchain, List.isChain_singleton q, ?_⟩
    intro last hlast next hnext
    rw [List.getLast?_reverse, hhead] at hlast
    obtain rfl := Option.some.inj hlast
    obtain rfl := Option.some.inj hnext
    exact hback

theorem prefix_takeWhile_append (h : q ∈ path) : path.takeWhile (· ≠ q) ++ [q] <+: path := by
  obtain ⟨later, earlier, rfl, hnew⟩ := List.eq_append_cons_of_mem h
  have hlater : later.takeWhile (· ≠ q) = later := by
    refine List.takeWhile_eq_self_iff.2 fun x hx => decide_eq_true ?_
    exact fun heq => hnew (heq ▸ hx)
  refine ⟨earlier, ?_⟩
  rw [List.takeWhile_append, hlater, if_pos rfl]
  simp

theorem head?_takeWhile_append (p q : Nat) (path : List Nat) :
    ((p :: path).takeWhile (· ≠ q) ++ [q]).head? = some p := by
  rw [List.takeWhile_cons]
  by_cases heq : p = q <;> simp [heq]

theorem IsPath.circular (h : IsPath edges count (p :: path)) (hq : q ∈ p :: path)
    (hback : q ∈ edges p) :
    Circular edges ((p :: path).takeWhile (· ≠ q) ++ [q]).reverse := by
  obtain ⟨rest, hrest⟩ := prefix_takeWhile_append hq
  have hchain := h.chain
  rw [← hrest] at hchain
  exact circular_of_chain hchain.left_of_append (head?_takeWhile_append p q path) hback

theorem mem_flatten_of_subset {cycles' : List (List Nat)} (hsub : cycles ⊆ cycles')
    (hp : p ∈ cycles.flatten) : p ∈ cycles'.flatten := by
  obtain ⟨cycle, hcycle, hp⟩ := List.mem_flatten.1 hp
  exact List.mem_flatten.2 ⟨cycle, hsub hcycle, hp⟩

/-- Each step from a finished production leads to one finished before it, or the production was
recorded. -/
def Finished (edges : Nat → List Nat) (cycles : List (List Nat)) : (done : List Nat) → Prop
  | [] => True
  | p :: older => (∀ q ∈ edges p, q ∈ older ∨ p ∈ cycles.flatten) ∧ Finished edges cycles older

theorem Finished.mono {cycles' : List (List Nat)} (hsub : cycles ⊆ cycles') :
    {done : List Nat} → Finished edges cycles done → Finished edges cycles' done
  | [], _ => trivial
  | _ :: _, ⟨hsteps, holder⟩ =>
    ⟨fun q hq => (hsteps q hq).imp_right (mem_flatten_of_subset hsub),
      holder.mono hsub⟩

structure Sound (edges : Nat → List Nat) (s : Search) : Prop where
  circular : ∀ cycle ∈ s.cycles, Circular edges cycle
  finished : Finished edges s.cycles s.done

structure Extends (edges : Nat → List Nat) (s s' : Search) : Prop where
  sound : Sound edges s'
  done : s.done ⊆ s'.done
  cycles : s.cycles ⊆ s'.cycles

theorem Extends.refl (h : Sound edges s) : Extends edges s s := ⟨h, fun _ => id, fun _ => id⟩

theorem Extends.trans {s'' : Search} (h : Extends edges s s') (h' : Extends edges s' s'') :
    Extends edges s s'' :=
  ⟨h'.sound, fun _ hp => h'.done (h.done hp), fun _ hc => h'.cycles (h.cycles hc)⟩

theorem Extends.recorded (h : Extends edges s s') (hp : p ∈ s.cycles.flatten) :
    p ∈ s'.cycles.flatten := mem_flatten_of_subset h.cycles hp

def follow (edges : Nat → List Nat) (fuel : Nat) (path : List Nat) (s : Search) (q : Nat) :
    Search :=
  if path.contains q then
    { s with cycles := s.cycles ++ [(path.takeWhile (· ≠ q) ++ [q]).reverse] }
  else if s.done.contains q then s
  else visit edges fuel path q s

def visitNew (edges : Nat → List Nat) (count : Nat) (s : Search) (p : Nat) : Search :=
  if s.done.contains p then s else visit edges count [] p s

theorem search_eq :
    search edges count = (List.range count).foldl (visitNew edges count) ⟨[], []⟩ := rfl

theorem visit_succ : visit edges (fuel + 1) path p s =
    let s' := (edges p).foldl (follow edges fuel (p :: path)) s
    { s' with done := p :: s'.done } := rfl

theorem extends_record {cycle : List Nat} (hs : Sound edges s) (h : Circular edges cycle) :
    Extends edges s { s with cycles := s.cycles ++ [cycle] } where
  sound :=
    { circular := fun c hc => by
        rcases List.mem_append.1 hc with hc | hc
        · exact hs.circular c hc
        · rwa [List.mem_singleton.1 hc]
      finished := hs.finished.mono (List.subset_append_left _ _) }
  done := fun _ => id
  cycles := List.subset_append_left _ _

theorem extends_finish (hs : Sound edges s)
    (h : ∀ q ∈ edges p, q ∈ s.done ∨ p ∈ s.cycles.flatten) :
    Extends edges s { s with done := p :: s.done } where
  sound := ⟨hs.circular, h, hs.finished⟩
  done := List.subset_cons_self _ _
  cycles := fun _ => id

section

variable (hlt : ∀ p, ∀ q ∈ edges p, q < count)

include hlt

section

variable
  (hvisit : ∀ {path q s}, IsPath edges count (q :: path) → count ≤ path.length + fuel →
    Sound edges s → Extends edges s (visit edges fuel path q s) ∧
      q ∈ (visit edges fuel path q s).done)
  (hpath : IsPath edges count (p :: path)) (hfuel : count ≤ (p :: path).length + fuel)

include hvisit hpath hfuel

theorem extends_follow (hq : q ∈ edges p) (hs : Sound edges s) :
    Extends edges s (follow edges fuel (p :: path) s q) ∧
      (q ∈ (follow edges fuel (p :: path) s q).done ∨
        p ∈ (follow edges fuel (p :: path) s q).cycles.flatten) := by
  by_cases hopen : q ∈ p :: path
  · rw [follow, if_pos (List.contains_iff_mem.2 hopen)]
    refine ⟨extends_record hs (hpath.circular hopen hq), .inr ?_⟩
    have hp := List.mem_of_mem_head? (head?_takeWhile_append p q path)
    exact List.mem_flatten.2 ⟨_, List.mem_append_right _ List.mem_cons_self,
      List.mem_reverse.2 hp⟩
  · rw [follow, if_neg (mt List.contains_iff_mem.1 hopen)]
    by_cases hdone : q ∈ s.done
    · rw [if_pos (List.contains_iff_mem.2 hdone)]
      exact ⟨.refl hs, .inl hdone⟩
    · rw [if_neg (mt List.contains_iff_mem.1 hdone)]
      obtain ⟨hext, hmem⟩ := hvisit (hpath.cons hq (hlt p q hq) hopen) hfuel hs
      exact ⟨hext, .inl hmem⟩

theorem extends_foldl_follow {targets : List Nat} (htargets : ∀ q ∈ targets, q ∈ edges p)
    (hs : Sound edges s) :
    Extends edges s (targets.foldl (follow edges fuel (p :: path)) s) ∧ ∀ q ∈ targets,
      q ∈ (targets.foldl (follow edges fuel (p :: path)) s).done ∨
        p ∈ (targets.foldl (follow edges fuel (p :: path)) s).cycles.flatten := by
  induction targets generalizing s with
  | nil => exact ⟨.refl hs, by simp⟩
  | cons q targets ih =>
    obtain ⟨hq, htargets⟩ := List.forall_mem_cons.1 htargets
    obtain ⟨hstep, hq⟩ := extends_follow hlt hvisit hpath hfuel hq hs
    obtain ⟨hrest, htold⟩ := ih htargets hstep.sound
    rw [List.foldl_cons]
    refine ⟨hstep.trans hrest, fun r hr => ?_⟩
    rcases List.mem_cons.1 hr with rfl | hr
    · exact hq.imp (fun hq => hrest.done hq) hrest.recorded
    · exact htold r hr

end

theorem extends_visit (hpath : IsPath edges count (p :: path)) (hfuel : count ≤ path.length + fuel)
    (hs : Sound edges s) :
    Extends edges s (visit edges fuel path p s) ∧ p ∈ (visit edges fuel path p s).done := by
  induction fuel generalizing path p s with
  | zero =>
    -- a path is not longer than there are productions
    have hlength := hpath.length_le
    rw [List.length_cons] at hlength
    omega
  | succ fuel ih =>
    have hroom : count ≤ (p :: path).length + fuel := by
      rw [List.length_cons]
      omega
    obtain ⟨hext, htold⟩ := extends_foldl_follow hlt ih hpath hroom (fun _ => id) hs
    rw [visit_succ]
    exact ⟨hext.trans (extends_finish hext.sound htold), List.mem_cons_self⟩

theorem extends_visitNew (hp : p < count) (hs : Sound edges s) :
    Extends edges s (visitNew edges count s p) ∧ p ∈ (visitNew edges count s p).done := by
  by_cases hdone : p ∈ s.done
  · rw [visitNew, if_pos (List.contains_iff_mem.2 hdone)]
    exact ⟨.refl hs, hdone⟩
  · rw [visitNew, if_neg (mt List.contains_iff_mem.1 hdone)]
    have hpath : IsPath edges count [p] := ⟨.singleton p, List.nodup_singleton p, by simpa⟩
    exact extends_visit hlt hpath (by simp) hs

theorem extends_foldl_visitNew {ps : List Nat} (hps : ∀ p ∈ ps, p < count) (hs : Sound edges s) :
    Extends edges s (ps.foldl (visitNew edges count) s) ∧
      ps ⊆ (ps.foldl (visitNew edges count) s).done := by
  induction ps generalizing s with
  | nil => exact ⟨.refl hs, List.nil_subset _⟩
  | cons p ps ih =>
    obtain ⟨hp, hps⟩ := List.forall_mem_cons.1 hps
    obtain ⟨hstep, hdone⟩ := extends_visitNew hlt hp hs
    obtain ⟨hrest, hall⟩ := ih hps hstep.sound
    exact ⟨hstep.trans hrest, List.cons_subset.2 ⟨hrest.done hdone, hall⟩⟩

theorem search_sound : Sound edges (search edges count) ∧
    ∀ p < count, p ∈ (search edges count).done := by
  have hstart : Sound edges ⟨[], []⟩ := ⟨by simp, trivial⟩
  obtain ⟨hext, hall⟩ := extends_foldl_visitNew hlt (fun p hp => List.mem_range.1 hp) hstart
  rw [search_eq]
  exact ⟨hext.sound, fun p hp => hall (List.mem_range.2 hp)⟩

end

/-- If one cannot leave `members` without giving up the way back, the first of them to be finished
was recorded. -/
theorem Finished.exists_recorded {members : Nat → Prop}
    (hnext : ∀ p, members p → ∃ q ∈ edges p, members q) {done : List Nat}
    (h : Finished edges cycles done) (hp : p ∈ done) (hmember : members p) :
    ∃ r, members r ∧ r ∈ cycles.flatten := by
  induction done generalizing p with
  | nil => exact absurd hp List.not_mem_nil
  | cons r older ih =>
    rcases List.mem_cons.1 hp with rfl | hp
    · obtain ⟨q, hq, hmember'⟩ := hnext p hmember
      rcases h.1 q hq with hq | hrecorded
      · exact ih h.2 hq hmember'
      · exact ⟨p, hmember, hrecorded⟩
    · exact ih h.2 hp hmember

theorem lt_of_mem_leftmost {g : Grammar} {nullable : Nullable} {fuel id q : Nat}
    (h : q ∈ leftmost g nullable fuel id) : q < g.productions.size := by
  induction fuel generalizing id with
  | zero => cases h
  | succ fuel ih =>
    rw [leftmost] at h
    split at h
    case h_6 name _ =>
      simp only [Option.mem_toList, Option.map_eq_some_iff] at h
      obtain ⟨p, hp, rfl⟩ := h
      exact Grammar.id_lt_of_mem (Grammar.mem_of_production? hp)
    case h_7 => cases h
    case h_1 | h_2 =>
      obtain ⟨i, -, hi⟩ := List.mem_flatMap.1 h
      exact ih hi
    all_goals exact ih h

theorem lt_of_mem_edges {g : Grammar} {nullable : Nullable}
    (h : q ∈ LeftRecursion.edges g nullable p) : q < g.productions.size := by
  rw [LeftRecursion.edges] at h
  split at h
  · exact lt_of_mem_leftmost (Ascending.mem_ofList.1 h)
  · cases h

theorem lt_of_leads {g : Grammar} {nullable : Nullable}
    (h : Leads (LeftRecursion.edges g nullable) p q) : p < g.productions.size := by
  by_contra hge
  rw [Leads, LeftRecursion.edges, Array.getElem?_eq_none (by omega)] at h
  cases h

end LeftRecursion

namespace Grammar

open Relation LeftRecursion

/-- The production `q` can begin what `p` derives, with only nullable parts before it. -/
def Begins (g : Grammar) (p q : Nat) : Prop := Leads (edges g g.computeSets.1.nullable) p q

instance (g : Grammar) (p q : Nat) : Decidable (g.Begins p q) :=
  inferInstanceAs (Decidable (q ∈ edges g g.computeSets.1.nullable p))

def SameCycle (g : Grammar) (p q : Nat) : Prop :=
  ReflTransGen g.Begins p q ∧ ReflTransGen g.Begins q p

variable {g : Grammar} {p : Nat}

theorem exists_next_on_cycle (h : TransGen g.Begins p p) {q : Nat} (hq : g.SameCycle p q) :
    ∃ r, g.Begins q r ∧ g.SameCycle p r := by
  have hback : TransGen g.Begins q p := by
    rcases ReflTransGen.cases_head hq.2 with rfl | ⟨r, hstep, hr⟩
    · exact h
    · exact TransGen.head' hstep hr
  obtain ⟨r, hstep, hr⟩ := TransGen.head'_iff.1 hback
  exact ⟨r, hstep, hq.1.tail hstep, hr⟩

theorem sound_cycles (g : Grammar) :
    Sound (edges g g.computeSets.1.nullable) (search (edges g g.computeSets.1.nullable)
      g.productions.size) ∧ ∀ p < g.productions.size,
        p ∈ (search (edges g g.computeSets.1.nullable) g.productions.size).done :=
  search_sound fun _ _ hq => lt_of_mem_edges hq

theorem mem_leftRecursive : p ∈ g.computeSets.1.leftRecursive ↔
    ∃ cycle ∈ cycles g g.computeSets.1.nullable, p ∈ cycle :=
  Ascending.mem_ofList.trans List.mem_flatten

theorem circular_of_mem {cycle : List Nat} (h : cycle ∈ cycles g g.computeSets.1.nullable) :
    Circular (edges g g.computeSets.1.nullable) cycle := (sound_cycles g).1.circular cycle h

theorem exists_leftRecursive (h : TransGen g.Begins p p) :
    ∃ r ∈ g.computeSets.1.leftRecursive, g.SameCycle p r := by
  obtain ⟨q, hstep, -⟩ := TransGen.head'_iff.1 h
  have hdone := (sound_cycles g).2 p (lt_of_leads hstep)
  have hnext : ∀ q, g.SameCycle p q → ∃ r ∈ edges g g.computeSets.1.nullable q, g.SameCycle p r :=
    fun q => exists_next_on_cycle h
  obtain ⟨r, hsame, hr⟩ :=
    (sound_cycles g).1.finished.exists_recorded hnext hdone ⟨.refl, .refl⟩
  exact ⟨r, Ascending.mem_ofList.2 hr, hsame⟩

theorem mem_of_single_cycle {cycle : List Nat} {q : Nat}
    (hcycle : Circular (edges g g.computeSets.1.nullable) cycle)
    (hsingle : ∀ q, g.SameCycle p q → ∀ r r', g.Begins q r → g.Begins q r' → g.SameCycle p r →
      g.SameCycle p r' → r = r') (hq : q ∈ cycle) (hsame : g.SameCycle p q) : p ∈ cycle := by
  obtain ⟨hto, hfrom⟩ := hsame
  induction hfrom using ReflTransGen.head_induction_on with
  | refl => exact hq
  | head hstep hrest ih =>
    rename_i q next
    obtain ⟨r, hr, hstep'⟩ := hcycle.next q hq
    -- from the next member one comes back to this one, and from here to `p`
    have hback : ReflTransGen g.Begins r p :=
      (hcycle.connected r hr q hq).trans (.head hstep hrest)
    have heq : next = r :=
      hsingle q ⟨hto, .head hstep hrest⟩ next r hstep hstep' ⟨hto.tail hstep, hrest⟩
        ⟨hto.tail hstep', hback⟩
    exact ih (heq ▸ hr) (hto.tail hstep)

/-- All productions found to be left-recursive are, and there is one of them on every cycle. A
production is sure to be found if from none of the productions that share a cycle with it there are
two ways on. -/
theorem leftRecursive_meets_cycles (g : Grammar) (p : Nat) :
    (p ∈ g.computeSets.1.leftRecursive → TransGen g.Begins p p) ∧
    (TransGen g.Begins p p → ∃ r ∈ g.computeSets.1.leftRecursive, g.SameCycle p r) ∧
    ((∀ q, g.SameCycle p q → ∀ r r', g.Begins q r → g.Begins q r' → g.SameCycle p r →
        g.SameCycle p r' → r = r') →
      (p ∈ g.computeSets.1.leftRecursive ↔ TransGen g.Begins p p)) := by
  have hsound : p ∈ g.computeSets.1.leftRecursive → TransGen g.Begins p p := by
    intro hp
    obtain ⟨cycle, hcycle, hp⟩ := mem_leftRecursive.1 hp
    exact (circular_of_mem hcycle).returns hp
  refine ⟨hsound, exists_leftRecursive, fun hsingle => ⟨hsound, fun hp => ?_⟩⟩
  obtain ⟨r, hr, hsame⟩ := exists_leftRecursive hp
  obtain ⟨cycle, hcycle, hr⟩ := mem_leftRecursive.1 hr
  exact mem_leftRecursive.2
    ⟨cycle, hcycle, mem_of_single_cycle (circular_of_mem hcycle) hsingle hr hsame⟩

/-- `A → B | C`, `B → A b | x`, `C → B c`: two cycles that share the step from `B` to `A`. -/
def sharedStep : Grammar :=
  (ofDeclarations {}
    [.production "A" none .none (.choice [.nonterminal "B", .nonterminal "C"]),
      .production "B" none .none (.choice [.seq [.nonterminal "A", .literal "b"], .literal "x"]),
      .production "C" none .none (.seq [.nonterminal "B", .literal "c"])]).validate.1

theorem sharedStep_cycle : TransGen sharedStep.Begins 2 2 := by
  have hCB : sharedStep.Begins 2 1 := by decide +kernel
  have hBA : sharedStep.Begins 1 0 := by decide +kernel
  have hAC : sharedStep.Begins 0 2 := by decide +kernel
  exact ((TransGen.single hCB).tail hBA).tail hAC

theorem leftRecursive_sharedStep : sharedStep.computeSets.1.leftRecursive = [0, 1] := by
  decide +kernel

theorem leftRecursive_meets_cycles_sharedStep :
    TransGen sharedStep.Begins 2 2 ∧
      ∃ r ∈ sharedStep.computeSets.1.leftRecursive, sharedStep.SameCycle 2 r :=
  ⟨sharedStep_cycle, (leftRecursive_meets_cycles sharedStep 2).2.1 sharedStep_cycle⟩

/-- Going through `A`, the search comes to `C` when `B` is finished already, so `C` is not found. -/
theorem leftRecursive_misses_sharedStep :
    ¬ ∀ (g : Grammar) (p : Nat), p ∈ g.computeSets.1.leftRecursive ↔ TransGen g.Begins p p := by
  intro h
  have hmem := (h sharedStep 2).2 sharedStep_cycle
  rw [leftRecursive_sharedStep] at hmem
  exact absurd hmem (by decide)

end Grammar
end PredictiveParsing
