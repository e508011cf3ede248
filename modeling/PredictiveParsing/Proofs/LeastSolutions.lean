import PredictiveParsing.Proofs.SetEquations
import PredictiveParsing.Proofs.SmallerBound
import PredictiveParsing.Proofs.VisitingOrders

/-!
# The sets of a grammar are least solutions

Nullability and the FIRST and FOLLOW sets each solve a system of equations with one equation for
every node and every production, and the passes that compute them visit all of these in some order.
What a visit adds is what the equation asks for, and it is monotone, concatenation and closure being
so. Thus the passes end in the least solution whatever the order is. Nothing is asked of the
grammar: names may be unresolved, and productions may derive nothing or be left-recursive. Main
statement: `sets_least`.
-/
namespace PredictiveParsing

open SequenceSet PredictiveParsing.SetFamily Saturation

namespace SequenceSet

theorem carried_subset (k : Nat) : Carried k k Subset fun _ => True where
  empty _ hx := hx
  single _ _ hx := hx
  union ha hb := ha.union hb
  concat ha hb _ := ha.concat hb k
  kleene ha := ha.kleene k
  ok_concat _ _ := trivial
  ok_kleene _ := trivial

end SequenceSet

namespace Nullable

variable {g : Grammar} {n n' : Nullable} {o : SetOwner}

def Below (n n' : Nullable) : Prop := ∀ o, n.get o = true → n'.get o = true

theorem ofKind_mono (hle : n.Below n') {kind : Node.Kind} (h : n.ofKind g kind = true) :
    n'.ofKind g kind = true := by
  have hnode (i : Nat) : n.node i = true → n'.node i = true := hle (.node i)
  cases kind with
  | sequence items =>
    exact List.all_eq_true.2 fun i hi => hnode i (List.all_eq_true.1 h i hi)
  | choice items =>
    obtain ⟨i, hi, hmarked⟩ := List.any_eq_true.1 h
    exact List.any_eq_true.2 ⟨i, hi, hnode i hmarked⟩
  | oneOrMore body => exact hnode body h
  | nonterminal name =>
    obtain ⟨p, hp, hmarked⟩ := (Option.any_eq_true ..).1 h
    exact (Option.any_eq_true ..).2 ⟨p, hp, hle (.production p.id) hmarked⟩
  | zeroOrMore body | zeroOrOne body | action code | lookahead la => rfl
  | token kind | tokenName name | literal image => cases h

theorem source_mono (hle : n.Below n') (h : source g n o = true) : source g n' o = true := by
  cases o with
  | node id => exact ofKind_mono hle h
  | production id =>
    obtain ⟨p, hp, hmarked⟩ := (Option.any_eq_true ..).1 h
    exact (Option.any_eq_true ..).2 ⟨p, hp, hle (.node p.root) hmarked⟩

def accumulation (g : Grammar) : Accumulation Nullable SetOwner SetOwner where
  toGrowth := growth g
  gives_mono hle h := ⟨h.1, h.2.1, source_mono hle h.2.2⟩

theorem solves_iff : (accumulation g).Solves n ↔ Solves g n := by
  rw [solves_iff_source]
  constructor
  · intro h
    refine ⟨h.fits, fun o howns => Bool.eq_iff_iff.2 ((h.holds_iff o).trans ⟨?_, ?_⟩)⟩
    · rintro (ho | ⟨_, rfl, -, ho⟩)
      · exact absurd ho (not_get_none g o)
      · exact ho
    · exact fun ho => .inr ⟨o, rfl, howns, ho⟩
  · rintro ⟨hfits, hequation⟩
    refine ⟨hfits, fun o => ⟨fun ho => ?_, ?_⟩⟩
    · have howns := hfits.owns ho
      exact .inr ⟨o, rfl, howns, (hequation o howns).symm.trans ho⟩
    · rintro (ho | ⟨_, rfl, howns, ho⟩)
      · exact absurd ho (not_get_none g o)
      · exact (hequation o howns).trans ho

theorem ofGrammar_endsLeast (g : Grammar) :
    EndsLeast (visit g) (none g) g.Covers (Solves g) Below (pass g) (ofGrammar g) :=
  (accumulation g).endsLeast (fun _ => solves_iff) (fun _ _ hle => hle) (pass_eq_visits g)
    g.covers_nodes_productions (card_ownersOf_lt g)

end Nullable

namespace SetFamily

open Follow (Paired addAll)

variable {g : Grammar} {k : Nat} {given : SetFamily → SetOwner → List (SetOwner × SequenceSet)}
  {start : SetFamily} (h : Handing g k given) (hstart : Kept g k start)
  (hmono : ∀ f f' : SetFamily, f.Below f' → ∀ o, g.Owns o →
    Paired Subset (given f o) (given f' o))

def accumulation : Accumulation SetFamily SetOwner (SetOwner × List Nat) where
  toGrowth := growth h hstart
  gives_mono hle hgives := by
    obtain ⟨howns, c, hc, howner, hx⟩ := hgives
    have hplace := h.owns _ _ c hc (howner ▸ howns)
    obtain ⟨c', hc', heq, hset⟩ :=
      (hmono _ _ (fun o x => hle (o, x)) _ hplace).exists_right c hc
    exact ⟨howns, c', hc', heq ▸ howner, hset _ hx⟩

/-- The set of every owner holds its members from the start and what owners hand to it. -/
structure Balanced (g : Grammar) (given : SetFamily → SetOwner → List (SetOwner × SequenceSet))
    (start f : SetFamily) : Prop where
  fits : f.Fits g
  mem_iff : ∀ o, g.Owns o → ∀ x,
    x ∈ f.get o ↔ x ∈ start.get o ∨ ∃ o', ∃ c ∈ given f o', c.1 = o ∧ x ∈ c.2

theorem solves_iff {f : SetFamily} :
    (accumulation h hstart hmono).Solves f ↔ Balanced g given start f := by
  constructor
  · intro hsolves
    refine ⟨hsolves.fits, fun o howns x => (hsolves.holds_iff (o, x)).trans (or_congr_right ?_)⟩
    exact ⟨fun ⟨o', _, hc⟩ => ⟨o', hc⟩, fun ⟨o', hc⟩ => ⟨o', howns, hc⟩⟩
  · intro hbalanced
    refine ⟨hbalanced.fits, fun i => ⟨fun hi => ?_, ?_⟩⟩
    · have howns := hbalanced.fits.owns hi
      refine ((hbalanced.mem_iff i.1 howns i.2).1 hi).imp_right ?_
      exact fun ⟨o, hc⟩ => ⟨o, howns, hc⟩
    · rintro (hi | ⟨o, howns, hc⟩)
      · exact (hbalanced.mem_iff i.1 (hstart.1.owns hi) i.2).2 (.inl hi)
      · exact (hbalanced.mem_iff i.1 howns i.2).2 (.inr ⟨o, hc⟩)

include h hstart hmono in
theorem endsLeast {Solves : SetFamily → Prop} (hsolves : ∀ f, Balanced g given start f ↔ Solves f)
    {pass : SetFamily → SetFamily} {order : List SetOwner} (hcovers : g.Covers order)
    (hpass : ∀ f, pass f = order.foldl (fun f o => addAll f (given f o)) f) :
    EndsLeast (fun f o => addAll f (given f o)) start g.Covers Solves Below pass
      (run pass (rounds g k) start) :=
  (accumulation h hstart hmono).endsLeast (fun f => (solves_iff h hstart hmono).trans (hsolves f))
    (fun _ _ hle o x => hle (o, x)) hpass hcovers (card_possible_lt g k)

end SetFamily

namespace First

variable {g : Grammar} {k : Nat} {f f' : SetFamily} {o : SetOwner}

theorem source_mono (hle : f.Below f') (howns : g.Owns o) :
    (source g k f o).Subset (source g k f' o) := by
  cases o with
  | node id =>
    exact carried_ofKind (carried_subset k) (Grammar.hasKind_kindOf howns) (fun o _ => hle o)
      (by simp)
  | production id =>
    rw [source, source, Array.getElem?_eq_getElem howns]
    exact hle (.node _)

theorem solves_of_balanced :
    Balanced g (fun f o => [(o, source g k f o)]) (.empty g) f ↔ Solves g k f := by
  have hempty (o : SetOwner) (x : List Nat) (p : Prop) : x ∈ (SetFamily.empty g).get o ∨ p ↔ p :=
    or_iff_right (not_mem_get_empty g o x)
  rw [solves_iff_source]
  constructor
  · rintro ⟨hfits, hiff⟩
    refine ⟨hfits, fun o howns x => ?_⟩
    simpa [hempty] using hiff o howns x
  · rintro ⟨hfits, hiff⟩
    refine ⟨hfits, fun o howns x => ?_⟩
    simpa [hempty] using hiff o howns x

theorem ofGrammar_endsLeast (g : Grammar) {k : Nat} (hk : 1 ≤ k) :
    EndsLeast (visit g k) (.empty g) g.Covers (Solves g k) SetFamily.Below (pass g k)
      (ofGrammar g k) :=
  endsLeast (handing_source g hk) (kept_empty g k)
    (fun _ _ hle _ howns => .cons ⟨rfl, source_mono hle howns⟩ .nil) (fun _ => solves_of_balanced)
    g.covers_nodes_productions (pass_eq_visits g k)

end First

namespace Follow

variable {g : Grammar} {first f f' : SetFamily} {k : Nat} {o : SetOwner}

theorem mem_get_start {x : List Nat} : x ∈ (start g).get o ↔
    ∃ p ∈ g.productions, endsInput g p = true ∧ o = .production p.id ∧ x = [eofKind] := by
  constructor
  · have hkeeps : (start g).Within fun o x => ∃ p ∈ g.productions,
        endsInput g p = true ∧ o = .production p.id ∧ x = [eofKind] :=
      start_keeps fun p hp hends => ⟨p, hp, hends, rfl, rfl⟩
    exact hkeeps o x
  · rintro ⟨p, hp, hends, rfl, rfl⟩
    exact eof_mem_start hp hends

theorem paired_given (hle : f.Below f') (o : SetOwner) :
    Paired Subset (given g first k f o) (given g first k f' o) := by
  cases o with
  | node id =>
    exact carried_contributions (carried_subset k) (hle (.node id)) trivial
      (fun _ _ _ hx => hx) (by simp)
  | production id =>
    rw [given, given]
    cases g.productions[id]? with
    | none => exact .nil
    | some p => exact .cons ⟨rfl, hle (.production id)⟩ .nil

theorem solves_of_balanced : Balanced g (given g first k) (start g) f ↔ Solves g first k f := by
  constructor
  · rintro ⟨hfits, hiff⟩
    refine ⟨hfits, fun o howns x => ?_⟩
    rw [flows_iff, hiff o howns x, mem_get_start]
  · rintro ⟨hfits, hiff⟩
    refine ⟨hfits, fun o howns x => ?_⟩
    rw [hiff o howns x, flows_iff, mem_get_start]

theorem ofGrammar_endsLeast (hk : 1 ≤ k) (hfirst : first.Within fun _ => Bounded g k) :
    EndsLeast (visit g first k) (start g) g.Covers (Solves g first k) SetFamily.Below
      (pass g first k) (ofGrammar g first k) :=
  endsLeast (handing_given hfirst) (kept_start g hk) (fun _ _ hle o _ => paired_given hle o)
    (fun _ => solves_of_balanced) g.covers_productions_nodes (pass_eq_visits g first k)

theorem ofGrammar_bounded (hk : 1 ≤ k) (hfirst : first.Within fun _ => Bounded g k) :
    (ofGrammar g first k).value.Within fun _ => Bounded g k :=
  ofGrammar_within (fun _ _ _ => bounded_eof hk) (fun _ _ _ hx => hx)
    fun _ kind _ _ houter => bounded_contributions hfirst houter kind

end Follow

namespace Grammar

/-- Nullability, FIRST sets and FOLLOW sets are the least solutions of their equations, those of the
FOLLOW sets taken for the FIRST sets found. The passes come to them in any order, and no sequence in
a set is longer than the bound. -/
theorem sets_least (g : Grammar) :
    let s := g.computeSets.1
    let nullable := Nullable.ofGrammar g
    let first := First.ofGrammar g s.k
    let follow := Follow.ofGrammar g s.first s.k
    (s.nullable = nullable.value ∧ s.first = first.value ∧ s.follow = follow.value) ∧
    EndsLeast (Nullable.visit g) (.none g) g.Covers (Nullable.Solves g) Nullable.Below
      (Nullable.pass g) nullable ∧
    EndsLeast (First.visit g s.k) (.empty g) g.Covers (First.Solves g s.k) SetFamily.Below
      (First.pass g s.k) first ∧
    EndsLeast (Follow.visit g s.first s.k) (Follow.start g) g.Covers (Follow.Solves g s.first s.k)
      SetFamily.Below (Follow.pass g s.first s.k) follow ∧
    ∀ o x, x ∈ s.first.get o ∨ x ∈ s.follow.get o → x.length ≤ s.k := by
  intro s nullable first follow
  have hk : 1 ≤ s.k := g.one_le_setBound
  obtain ⟨⟨-, hfirst⟩, -⟩ := First.ofGrammar_closed g hk
  refine ⟨⟨rfl, rfl, rfl⟩, Nullable.ofGrammar_endsLeast g, First.ofGrammar_endsLeast g hk,
    Follow.ofGrammar_endsLeast hk hfirst, ?_⟩
  rintro o x (hx | hx)
  · exact (hfirst o x hx).1
  · exact (Follow.ofGrammar_bounded hk hfirst o x hx).1

theorem sets_least_itemList :
    let s := itemList.computeSets.1
    let order (n : Nat) := (itemList.nodeOwners ++ itemList.productionOwners).rotate n
    (∀ n, itemList.Covers (order n)) ∧
    (∃ n, afterPasses (First.visit itemList s.k) (.empty itemList) order n = s.first) ∧
    [1].take s.k ∈ s.first.get (.node 0) ∧ ([1].take s.k).length ≤ s.k := by
  intro s order
  have hcovers (n : Nat) : itemList.Covers (order n) := fun o howns =>
    List.mem_rotate.2 (itemList.covers_nodes_productions o howns)
  have hitem : [1].take s.k ∈ s.first.node 0 := itemList.take_mem_first (.token rfl)
  have hvalue := (sets_least itemList).1.2.1
  have hfirst := (sets_least itemList).2.2.1
  obtain ⟨n, hidle⟩ := hfirst.ends order
  refine ⟨hcovers, ⟨n, (hfirst.same order hcovers n hidle).trans hvalue.symm⟩, hitem, ?_⟩
  exact (sets_least itemList).2.2.2.2 (.node 0) _ (.inl hitem)

end Grammar
end PredictiveParsing
