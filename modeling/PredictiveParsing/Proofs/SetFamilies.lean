import Mathlib.Data.Finset.Card
import Mathlib.Data.Finset.Prod
import Mathlib.Data.Finset.Range
import Mathlib.Tactic.Linarith
import Mathlib.Tactic.Ring
import PredictiveParsing.Proofs.Derivation
import PredictiveParsing.Proofs.VisitingOrders
import PredictiveParsing.Sets.Follow

/-!
# Families of sets and their growth

A family is looked at through the members of the set of each owner. A pass visits the owners, and a
visit only adds members to the sets of those that the owner hands something to. Members of at most
`k` tokens over the kinds that a grammar mentions are finitely many, and fewer than the passes
allowed, so that the passes end with sets that hold all that is handed to their owners. Main
statement: `saturate_closed`.
-/
namespace PredictiveParsing

section

variable {α : Type} {a b : Array α} {d : α}

theorem getD_replicate (n i : Nat) (d : α) : (Array.replicate n d)[i]?.getD d = d := by
  rw [Array.getElem?_replicate]
  split <;> rfl

theorem lt_size_of_getD_ne {i : Nat} (h : a[i]?.getD d ≠ d) : i < a.size := by
  by_contra hi
  rw [Array.getElem?_eq_none (Nat.le_of_not_lt hi)] at h
  exact h rfl

theorem eq_of_getD_eq (hsize : a.size = b.size) (h : ∀ i : Nat, a[i]?.getD d = b[i]?.getD d) :
    a = b := by
  refine Array.ext hsize fun i hi hi' => ?_
  simpa [Array.getElem?_eq_getElem hi, Array.getElem?_eq_getElem hi'] using h i

end

namespace SetFamily

def get (f : SetFamily) : SetOwner → SequenceSet
  | .node id => f.node id
  | .production id => f.production id

structure Fits (g : Grammar) (f : SetFamily) : Prop where
  nodes : f.nodes.size = g.nodes.size
  productions : f.productions.size = g.productions.size

end SetFamily

namespace Grammar

variable {g : Grammar}

def Owns (g : Grammar) : SetOwner → Prop
  | .node id => id < g.nodes.size
  | .production id => id < g.productions.size

def Covers (g : Grammar) (order : List SetOwner) : Prop := ∀ o, g.Owns o → o ∈ order

def nodeOwners (g : Grammar) : List SetOwner := g.nodeIds.map .node

def productionOwners (g : Grammar) : List SetOwner :=
  g.productions.toList.map fun p => .production p.id

theorem mem_owners {o : SetOwner} (h : g.Owns o) : o ∈ g.nodeOwners ∨ o ∈ g.productionOwners := by
  cases o with
  | node id => exact .inl (List.mem_map.2 ⟨id, List.mem_range.2 h, rfl⟩)
  | production id =>
    have hp := Array.getElem?_eq_getElem h
    refine .inr (List.mem_map.2 ⟨_, Array.mem_toList_iff.2 (Array.getElem_mem h), ?_⟩)
    rw [g.productions_numbered id _ hp]

theorem covers_nodes_productions (g : Grammar) : g.Covers (g.nodeOwners ++ g.productionOwners) :=
  fun _ h => List.mem_append.2 (mem_owners h)

theorem covers_productions_nodes (g : Grammar) :
    g.Covers (g.productionOwners ++ g.nodeOwners.reverse) := by
  intro o h
  rw [List.mem_append, List.mem_reverse]
  exact (mem_owners h).symm

theorem foldl_productionOwners {α : Type} {visit : α → SetOwner → α} {step : α → Production → α}
    (h : ∀ a, ∀ p ∈ g.productions, visit a (.production p.id) = step a p) (a : α) :
    g.productionOwners.foldl visit a = g.productions.toList.foldl step a := by
  rw [productionOwners, List.foldl_map]
  exact List.foldl_ext _ _ a fun a p hp => h a p (Array.mem_toList_iff.1 hp)

end Grammar

namespace SetFamily

variable {g : Grammar} {f f' : SetFamily}

theorem Fits.empty (g : Grammar) : (SetFamily.empty g).Fits g :=
  ⟨Array.size_replicate, Array.size_replicate⟩

theorem Fits.add (h : f.Fits g) (o : SetOwner) (s : SequenceSet) : (f.add o s).Fits g := by
  cases o with
  | node id => exact ⟨(Array.size_modify ..).trans h.nodes, h.productions⟩
  | production id => exact ⟨h.nodes, (Array.size_modify ..).trans h.productions⟩

theorem not_mem_get_empty (g : Grammar) (o : SetOwner) (x : List Nat) :
    ¬ x ∈ (SetFamily.empty g).get o := by
  cases o with
  | node id =>
    rw [get, node, SetFamily.empty, getD_replicate]
    exact SequenceSet.not_mem_empty x
  | production id =>
    rw [get, production, SetFamily.empty, getD_replicate]
    exact SequenceSet.not_mem_empty x

theorem mem_modify {a : Array SequenceSet} {i j : Nat} {s : SequenceSet} {x : List Nat} :
    x ∈ (a.modify i (·.union s))[j]?.getD .empty ↔
      x ∈ a[j]?.getD .empty ∨ j = i ∧ i < a.size ∧ x ∈ s := by
  rw [Array.getElem?_modify]
  by_cases hij : i = j
  · subst hij
    by_cases hi : i < a.size
    · simp [hi]
    · simp [hi]
  · rw [if_neg hij]
    constructor
    · exact .inl
    · rintro (h | ⟨h, -⟩)
      · exact h
      · exact absurd h.symm hij

theorem mem_get_add (h : f.Fits g) {o o' : SetOwner} {s : SequenceSet} {x : List Nat} :
    x ∈ (f.add o s).get o' ↔ x ∈ f.get o' ∨ o' = o ∧ g.Owns o ∧ x ∈ s := by
  cases o with
  | node id =>
    cases o' with
    | node id' =>
      simp only [SetOwner.node.injEq, Grammar.Owns, ← h.nodes]
      exact mem_modify
    | production id' => simp [get, add, production]
  | production id =>
    cases o' with
    | node id' => simp [get, add, node]
    | production id' =>
      simp only [SetOwner.production.injEq, Grammar.Owns, ← h.productions]
      exact mem_modify

theorem Fits.owns (h : f.Fits g) {o : SetOwner} {x : List Nat} (hx : x ∈ f.get o) : g.Owns o := by
  have hlt {a : Array SequenceSet} {i : Nat} (hx : x ∈ a[i]?.getD SequenceSet.empty) :
      i < a.size := by
    apply lt_size_of_getD_ne (d := .empty)
    intro heq
    rw [heq] at hx
    exact SequenceSet.not_mem_empty x hx
  cases o with
  | node id => exact Nat.lt_of_lt_of_eq (hlt hx) h.nodes
  | production id => exact Nat.lt_of_lt_of_eq (hlt hx) h.productions

theorem eq_of_mem_iff (h : f.Fits g) (h' : f'.Fits g) (hmem : ∀ o x, x ∈ f.get o ↔ x ∈ f'.get o) :
    f = f' := by
  obtain ⟨nodes, productions⟩ := f
  obtain ⟨nodes', productions'⟩ := f'
  have hnodes : nodes = nodes' := eq_of_getD_eq (h.nodes.trans h'.nodes.symm) fun i =>
    SequenceSet.ext (hmem (.node i))
  have hproductions : productions = productions' :=
    eq_of_getD_eq (h.productions.trans h'.productions.symm) fun i =>
      SequenceSet.ext (hmem (.production i))
  rw [hnodes, hproductions]

def Below (f f' : SetFamily) : Prop := ∀ o x, x ∈ f.get o → x ∈ f'.get o

theorem Below.refl (f : SetFamily) : f.Below f := fun _ _ h => h

theorem Below.trans {f'' : SetFamily} (h : f.Below f') (h' : f'.Below f'') : f.Below f'' :=
  fun o x hx => h' o x (h o x hx)

def Within (P : SetOwner → List Nat → Prop) (f : SetFamily) : Prop := ∀ o x, x ∈ f.get o → P o x

theorem Within.empty (P : SetOwner → List Nat → Prop) (g : Grammar) :
    (SetFamily.empty g).Within P :=
  fun o x hx => absurd hx (not_mem_get_empty g o x)

theorem Within.add {P : SetOwner → List Nat → Prop} (hf : f.Fits g) (h : f.Within P) {o : SetOwner}
    {s : SequenceSet} (hs : ∀ x ∈ s, g.Owns o → P o x) : (f.add o s).Within P := by
  intro o' x hx
  rcases (mem_get_add hf).1 hx with hx | ⟨rfl, howns, hx⟩
  · exact h o' x hx
  · exact hs x hx howns

def Adds (g : Grammar) (step : SetFamily → SetFamily) : Prop :=
  ∀ f : SetFamily, f.Fits g → (step f).Fits g ∧ f.Below (step f)

theorem adds_add (o : SetOwner) (s : SetFamily → SequenceSet) : Adds g fun f => f.add o (s f) :=
  fun f hf => ⟨hf.add o (s f), fun _ _ hx => (mem_get_add hf).2 (.inl hx)⟩

theorem Adds.comp {step step' : SetFamily → SetFamily} (h : Adds g step) (h' : Adds g step') :
    Adds g fun f => step' (step f) := by
  intro f hf
  obtain ⟨hfits, hbelow⟩ := h f hf
  obtain ⟨hfits', hbelow'⟩ := h' _ hfits
  exact ⟨hfits', hbelow.trans hbelow'⟩

section

variable {β : Type} {step : SetFamily → β → SetFamily} {l : List β}

theorem Adds.foldl (h : ∀ b ∈ l, Adds g (step · b)) : Adds g (l.foldl step ·) := by
  intro f hf
  induction l generalizing f with
  | nil => exact ⟨hf, .refl f⟩
  | cons b l ih =>
    exact ((h b List.mem_cons_self).comp
      fun f' => ih (fun c hc => h c (List.mem_cons_of_mem _ hc)) f') f hf

theorem Within.foldl {P : SetOwner → List Nat → Prop} (hadds : ∀ b ∈ l, Adds g (step · b))
    (hstep : ∀ b ∈ l, ∀ f : SetFamily, f.Fits g → f.Within P → (step f b).Within P)
    (hf : f.Fits g) (h : f.Within P) : (l.foldl step f).Within P := by
  induction l generalizing f with
  | nil => exact h
  | cons b l ih =>
    refine ih (fun c hc => hadds c (List.mem_cons_of_mem _ hc))
      (fun c hc => hstep c (List.mem_cons_of_mem _ hc)) (hadds b List.mem_cons_self f hf).1 ?_
    exact hstep b List.mem_cons_self f hf h

end

def sequencesOver (kinds : Finset Nat) : (k : Nat) → Finset (List Nat)
  | 0 => {[]}
  | k + 1 => insert [] ((kinds ×ˢ sequencesOver kinds k).image fun p => p.1 :: p.2)

theorem mem_sequencesOver {kinds : Finset Nat} {k : Nat} {x : List Nat} :
    x ∈ sequencesOver kinds k ↔ x.length ≤ k ∧ ∀ t ∈ x, t ∈ kinds := by
  induction k generalizing x with
  | zero =>
    rw [sequencesOver, Finset.mem_singleton, Nat.le_zero, List.length_eq_zero_iff]
    constructor
    · rintro rfl
      exact ⟨rfl, by simp⟩
    · exact And.left
  | succ k ih =>
    rw [sequencesOver, Finset.mem_insert, Finset.mem_image]
    cases x with
    | nil => simp
    | cons t x =>
      simp only [reduceCtorEq, false_or, Prod.exists, Finset.mem_product, ih, List.cons.injEq,
        List.length_cons, List.forall_mem_cons]
      constructor
      · rintro ⟨a, b, ⟨ha, hlen, hb⟩, rfl, rfl⟩
        exact ⟨by omega, ha, hb⟩
      · rintro ⟨hlen, ht, hx⟩
        exact ⟨t, x, ⟨ht, by omega, hx⟩, rfl, rfl⟩

theorem card_sequencesOver_le (kinds : Finset Nat) (k : Nat) :
    (sequencesOver kinds k).card ≤ (kinds.card + 1) ^ k := by
  induction k with
  | zero => simp [sequencesOver]
  | succ k ih =>
    have hpos : 1 ≤ (kinds.card + 1) ^ k := Nat.one_le_pow _ _ (Nat.succ_pos _)
    calc (sequencesOver kinds (k + 1)).card
        ≤ ((kinds ×ˢ sequencesOver kinds k).image fun p => p.1 :: p.2).card + 1 :=
          Finset.card_insert_le _ _
      _ ≤ (kinds ×ˢ sequencesOver kinds k).card + 1 := by
          have := Finset.card_image_le (s := kinds ×ˢ sequencesOver kinds k)
            (f := fun p => p.1 :: p.2)
          omega
      _ = kinds.card * (sequencesOver kinds k).card + 1 := by rw [Finset.card_product]
      _ ≤ kinds.card * (kinds.card + 1) ^ k + (kinds.card + 1) ^ k :=
          Nat.add_le_add (Nat.mul_le_mul_left _ ih) hpos
      _ = (kinds.card + 1) ^ (k + 1) := by ring

def kindsOf (g : Grammar) : Finset Nat :=
  insert eofKind (g.nodes.toList.filterMap fun n => match n.kind with
    | .token kind => some kind
    | _ => none).toFinset

theorem card_kindsOf_le (g : Grammar) : (kindsOf g).card ≤ g.nodes.size + 1 := by
  refine Nat.le_trans (Finset.card_insert_le _ _) (Nat.succ_le_succ ?_)
  refine Nat.le_trans (List.toFinset_card_le _) ?_
  exact Nat.le_trans (List.length_filterMap_le _ _) (Nat.le_of_eq Array.length_toList)

def ownersOf (g : Grammar) : Finset SetOwner :=
  (Finset.range g.nodes.size).image .node ∪ (Finset.range g.productions.size).image .production

theorem mem_ownersOf {o : SetOwner} : o ∈ ownersOf g ↔ g.Owns o := by
  cases o <;> simp [ownersOf, Grammar.Owns]

theorem card_ownersOf_le (g : Grammar) : (ownersOf g).card ≤ g.nodes.size + g.productions.size := by
  refine Nat.le_trans (Finset.card_union_le _ _) (Nat.add_le_add ?_ ?_)
  · exact Nat.le_trans Finset.card_image_le (Nat.le_of_eq (Finset.card_range _))
  · exact Nat.le_trans Finset.card_image_le (Nat.le_of_eq (Finset.card_range _))

def Bounded (g : Grammar) (k : Nat) (x : List Nat) : Prop := x.length ≤ k ∧ ∀ t ∈ x, t ∈ kindsOf g

def possible (g : Grammar) (k : Nat) : Finset (SetOwner × List Nat) :=
  ownersOf g ×ˢ sequencesOver (kindsOf g) k

theorem card_possible_lt (g : Grammar) (k : Nat) : (possible g k).card + 1 < 2 ^ rounds g k := by
  have howners := card_ownersOf_le g
  have hsequences := card_sequencesOver_le (kindsOf g) k
  have hkinds := card_kindsOf_le g
  have hn : g.nodes.size + 1 < 2 ^ (g.nodes.size + 1) := Nat.lt_two_pow_self
  have hm : g.nodes.size + g.productions.size < 2 ^ (g.nodes.size + g.productions.size) :=
    Nat.lt_two_pow_self
  have hpow : (sequencesOver (kindsOf g) k).card ≤ 2 ^ ((g.nodes.size + 1) * k) := by
    refine Nat.le_trans hsequences ?_
    rw [Nat.pow_mul]
    exact Nat.pow_le_pow_left (by omega) k
  have hcard : (possible g k).card <
      2 ^ (g.nodes.size + g.productions.size) * 2 ^ ((g.nodes.size + 1) * k) := by
    rw [possible, Finset.card_product]
    exact Nat.mul_lt_mul_of_lt_of_le (by omega) hpow (Nat.two_pow_pos _)
  rw [← Nat.pow_add] at hcard
  have hexponent : g.nodes.size + g.productions.size + (g.nodes.size + 1) * k < rounds g k := by
    rw [rounds]
    nlinarith
  have := Nat.pow_lt_pow_right (a := 2) (by decide) hexponent
  omega

theorem mem_possible {k : Nat} {i : SetOwner × List Nat} :
    i ∈ possible g k ↔ g.Owns i.1 ∧ Bounded g k i.2 := by
  rw [possible, Finset.mem_product, mem_ownersOf, mem_sequencesOver]
  rfl

def Kept (g : Grammar) (k : Nat) (f : SetFamily) : Prop := f.Fits g ∧ f.Within fun _ => Bounded g k

open Follow (addAll)

theorem adds_addAll (sets : SetFamily → List (SetOwner × SequenceSet)) :
    Adds g fun f => addAll f (sets f) :=
  fun f hf => (Adds.foldl fun p _ => adds_add p.1 fun _ => p.2) f hf

theorem mem_get_addAll (hf : f.Fits g) {sets : List (SetOwner × SequenceSet)} {o : SetOwner}
    {x : List Nat} :
    x ∈ (addAll f sets).get o ↔ x ∈ f.get o ∨ g.Owns o ∧ ∃ c ∈ sets, c.1 = o ∧ x ∈ c.2 := by
  induction sets generalizing f with
  | nil => simp [addAll]
  | cons c sets ih =>
    have hadd := ih (hf.add c.1 c.2)
    rw [mem_get_add hf] at hadd
    simp only [List.exists_mem_cons_iff]
    refine hadd.trans ?_
    constructor
    · rintro ((hx | ⟨rfl, howns, hx⟩) | ⟨howns, hx⟩)
      · exact .inl hx
      · exact .inr ⟨howns, .inl ⟨rfl, hx⟩⟩
      · exact .inr ⟨howns, .inr hx⟩
    · rintro (hx | ⟨howns, ⟨rfl, hx⟩ | hx⟩)
      · exact .inl (.inl hx)
      · exact .inl (.inr ⟨rfl, howns, hx⟩)
      · exact .inr ⟨howns, hx⟩

/-- What each owner hands to others, `given f o`, if their sets are those of `f`: nothing comes from
elsewhere than the grammar, and nothing else than possible members. -/
structure Handing (g : Grammar) (k : Nat)
    (given : SetFamily → SetOwner → List (SetOwner × SequenceSet)) : Prop where
  owns : ∀ f o, ∀ c ∈ given f o, g.Owns c.1 → g.Owns o
  bounded : ∀ f : SetFamily, (f.Within fun _ => Bounded g k) → ∀ o, g.Owns o →
    ∀ c ∈ given f o, ∀ x ∈ c.2, Bounded g k x

section

variable {k : Nat} {given : SetFamily → SetOwner → List (SetOwner × SequenceSet)}
  {start : SetFamily}

def growth (h : Handing g k given) (hstart : Kept g k start) :
    Growth SetFamily SetOwner (SetOwner × List Nat) where
  Fits f := f.Fits g
  Holds f i := i.2 ∈ f.get i.1
  Place := g.Owns
  Gives f o i := g.Owns i.1 ∧ ∃ c ∈ given f o, c.1 = i.1 ∧ i.2 ∈ c.2
  start := start
  visit f o := addAll f (given f o)
  possible := possible g k
  fits_start := hstart.1
  fits_visit o hf := (adds_addAll (given · o) _ hf).1
  ext hf hf' hiff := eq_of_mem_iff hf hf' fun o x => hiff (o, x)
  holds_visit hf := mem_get_addAll hf
  place_of_gives hgives := by
    obtain ⟨howns, c, hc, howner, -⟩ := hgives
    exact h.owns _ _ c hc (howner ▸ howns)
  possible_start hi := mem_possible.2 ⟨hstart.1.owns hi, hstart.2 _ _ hi⟩
  possible_gives hle hgives := by
    obtain ⟨howns, c, hc, howner, hx⟩ := hgives
    have hwithin := fun o x hx => (mem_possible.1 (hle (o, x) hx)).2
    have hplace := h.owns _ _ c hc (howner ▸ howns)
    exact mem_possible.2 ⟨howns, h.bounded _ hwithin _ hplace c hc _ hx⟩

/-- Saturation by passes that visit all owners ends in a family that holds all that its owners hand
to each other. -/
theorem saturate_closed (h : Handing g k given) (hstart : Kept g k start)
    {pass : SetFamily → SetFamily} {order : List SetOwner} (hcovers : g.Covers order)
    (hpass : ∀ f, pass f = order.foldl (fun f o => addAll f (given f o)) f) :
    Kept g k (Saturation.run pass (rounds g k) start).value ∧
      start.Below (Saturation.run pass (rounds g k) start).value ∧
      ∀ o, ∀ c ∈ given (Saturation.run pass (rounds g k) start).value o, g.Owns c.1 →
        ∀ x ∈ c.2, x ∈ (Saturation.run pass (rounds g k) start).value.get c.1 := by
  obtain ⟨hkept, hclosed⟩ := (growth h hstart).run_closed hpass hcovers (card_possible_lt g k)
  refine ⟨⟨hkept.fits, fun o x hx => ?_⟩, fun o x => hkept.above (o, x), ?_⟩
  · exact (mem_possible.1 (hkept.possible (o, x) hx)).2
  · intro o c hc howns x hx
    exact hclosed o (c.1, x) ⟨howns, c, hc, rfl, hx⟩

end

end SetFamily
end PredictiveParsing
