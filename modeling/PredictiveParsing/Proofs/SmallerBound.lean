import PredictiveParsing.Proofs.ConcatenationLaws
import PredictiveParsing.Proofs.ExactFollow

/-!
# Sets computed with different bounds

What a set computed with a large bound holds is, cut to a smaller one, in the set computed with the
smaller bound. The converse fails where something derives nothing: a member that fills the small
bound asks nothing of what comes after it, and one that does not fill the large bound is lost if
nothing can come after it. Where no set computed with the large bound is empty, there is always
something to go on with, and cutting gives exactly the smaller sets. Main statement:
`truncate_sets`.
-/
namespace PredictiveParsing

namespace SequenceSet

variable {a a' b b' : SequenceSet} {k K : Nat}

/-- A relation between sets computed with the bound `K` and sets computed with the bound `k` that
the operations on sets keep, a concatenation if the second operand is as it has to be. -/
structure Carried (k K : Nat) (R : SequenceSet → SequenceSet → Prop) (Ok : SequenceSet → Prop) :
    Prop where
  empty : R empty empty
  single {s : List Nat} (hs : s.length ≤ 1) : R (single s) (single s)
  union {a a' b b' : SequenceSet} (ha : R a a') (hb : R b b') : R (a.union b) (a'.union b')
  concat {a a' b b' : SequenceSet} (ha : R a a') (hb : R b b') (hgo : Ok b) :
    R (a.concat b K) (a'.concat b' k)
  kleene {a a' : SequenceSet} (ha : R a a') : R (a.kleene K) (a'.kleene k)
  ok_concat {a b : SequenceSet} (ha : Ok a) (hb : Ok b) : Ok (a.concat b K)
  ok_kleene (a : SequenceSet) : Ok (a.kleene K)

theorem carried_into (hk : 1 ≤ k) (hK : k ≤ K) : Carried k K (CutsInto k) fun _ => True where
  empty s hs := absurd hs (not_mem_empty s)
  single hs := by simp [CutsInto, List.take_of_length_le (Nat.le_trans hs hk)]
  union ha hb := ha.union hb
  concat ha hb _ := ha.concat hK hb
  kleene ha := ha.kleene hK
  ok_concat _ _ := trivial
  ok_kleene _ := trivial

theorem carried_onto (hk : 1 ≤ k) (hK : k ≤ K) : Carried k K (CutsOnto k) Nonempty where
  empty s hs := absurd hs (not_mem_empty s)
  single hs := by simp [CutsOnto, List.take_of_length_le (Nat.le_trans hs hk)]
  union ha hb := ha.union hb
  concat ha hb hgo := ha.concat hK hb hgo
  kleene ha := ha.kleene hK
  ok_concat ha hb := ha.concat hb K
  ok_kleene a := nonempty_kleene a K

section

variable {R : SequenceSet → SequenceSet → Prop} {Ok : SequenceSet → Prop}
  {sets sets' : Nat → SequenceSet} {items : List Nat}

theorem Carried.foldl_concat (h : Carried k K R Ok) (hsets : ∀ i ∈ items, R (sets i) (sets' i))
    (hgo : ∀ i ∈ items, Ok (sets i)) (hacc : R a a') :
    R (items.foldl (fun acc i => acc.concat (sets i) K) a)
      (items.foldl (fun acc i => acc.concat (sets' i) k) a') := by
  induction items generalizing a a' with
  | nil => exact hacc
  | cons i items ih =>
    simp only [List.mem_cons, forall_eq_or_imp] at hsets hgo
    exact ih hsets.2 hgo.2 (h.concat hacc hsets.1 hgo.1)

theorem Carried.foldl_union (h : Carried k K R Ok) (hsets : ∀ i ∈ items, R (sets i) (sets' i))
    (hacc : R a a') :
    R (items.foldl (fun acc i => acc.union (sets i)) a)
      (items.foldl (fun acc i => acc.union (sets' i)) a') := by
  induction items generalizing a a' with
  | nil => exact hacc
  | cons i items ih =>
    simp only [List.mem_cons, forall_eq_or_imp] at hsets
    exact ih hsets.2 (h.union hacc hsets.1)

end

end SequenceSet

open SequenceSet PredictiveParsing.SetFamily Relation

variable {g : Grammar} {k K : Nat} {R : SequenceSet → SequenceSet → Prop}
  {Ok : SequenceSet → Prop}

namespace Grammar

inductive Down (g : Grammar) : SetOwner → SetOwner → Prop
  | part {id i : Nat} {kind : Node.Kind} (h : g.HasKind id kind) (hi : i ∈ kind.children) :
      Down g (.node id) (.node i)
  | reference {id : Nat} {name : String} {p : Production} (h : g.HasKind id (.nonterminal name))
      (hp : g.production? name = some p) : Down g (.node id) (.production p.id)
  | root {p : Production} (hp : p ∈ g.productions) : Down g (.production p.id) (.node p.root)

def Reaches (g : Grammar) (o o' : SetOwner) : Prop := ReflTransGen g.Down o o'

variable {o o' : SetOwner}

theorem Down.owns_left (h : g.Down o o') : g.Owns o := by
  cases h with
  | part hkind _ => exact hkind.lt
  | reference hkind _ => exact hkind.lt
  | root hp => exact id_lt_of_mem hp

theorem Down.owns_right (hplanted : g.Planted) (h : g.Down o o') : g.Owns o' := by
  cases h with
  | part hkind hi => exact Nat.lt_trans (hplanted.part_lt hkind hi) hkind.lt
  | reference _ hp => exact id_lt_of_mem (mem_of_production? hp)
  | root hp => exact hplanted.root_lt hp

theorem Reaches.owns_left (h : g.Reaches o o') (howns : g.Owns o') : g.Owns o := by
  rcases h.cases_head with rfl | ⟨_, hstep, -⟩
  · exact howns
  · exact hstep.owns_left

theorem Reaches.owns_right (hplanted : g.Planted) (h : g.Reaches o o') (howns : g.Owns o) :
    g.Owns o' := by
  rcases h.cases_tail with rfl | ⟨_, -, hstep⟩
  · exact howns
  · exact hstep.owns_right hplanted

end Grammar

namespace First

variable {f f' : SetFamily} {id : Nat} {kind : Node.Kind}

theorem carried_ofKind (hcarried : Carried k K R Ok) (hkind : g.HasKind id kind)
    (h : ∀ o, g.Down (.node id) o → R (f.get o) (f'.get o))
    (hgo : ∀ o, g.Down (.node id) o → Ok (f.get o)) :
    R (ofKind g K f kind) (ofKind g k f' kind) := by
  have hnode : ∀ i ∈ kind.children, R (f.node i) (f'.node i) := fun i hi => h _ (.part hkind hi)
  have hitems : ∀ i ∈ kind.children, Ok (f.node i) := fun i hi => hgo _ (.part hkind hi)
  have hepsilon : R epsilon epsilon := hcarried.single (Nat.zero_le 1)
  cases kind with
  | sequence items => exact hcarried.foldl_concat hnode hitems hepsilon
  | choice items => exact hcarried.foldl_union hnode hcarried.empty
  | zeroOrMore body => exact hcarried.kleene (hnode body (List.mem_singleton_self _))
  | oneOrMore body =>
    have hbody := hnode body (List.mem_singleton_self _)
    exact hcarried.concat hbody (hcarried.kleene hbody) (hcarried.ok_kleene _)
  | zeroOrOne body => exact hcarried.union (hnode body (List.mem_singleton_self _)) hepsilon
  | nonterminal name =>
    simp only [ofKind]
    split
    · next p hp => exact h _ (.reference hkind hp)
    · exact hcarried.empty
  | token kind => exact hcarried.single (Nat.le_refl 1)
  | tokenName name | literal image => exact hcarried.empty
  | action code | lookahead la => exact hepsilon

theorem cutsInto_ofGrammar (g : Grammar) (hk : 1 ≤ k) (hK : k ≤ K) (o : SetOwner) :
    CutsInto k ((ofGrammar g K).value.get o) ((ofGrammar g k).value.get o) := by
  obtain ⟨-, hclosed⟩ := ofGrammar_closed g hk
  refine ofGrammar_within (P := fun o x => x.take k ∈ (ofGrammar g k).value.get o) ?_ ?_ o
  · intro id kind hkind f h x hx
    have hcuts : CutsInto k (ofKind g K f kind) (ofKind g k (ofGrammar g k).value kind) :=
      carried_ofKind (carried_into hk hK) hkind (fun o _ => h o) (by simp)
    exact hclosed.node id kind hkind _ (hcuts x hx)
  · intro p hp x hx
    exact hclosed.production p hp _ hx

/-- No set that goes into the one of `o` is empty. -/
def Filled (g : Grammar) (f : SetFamily) (o : SetOwner) : Prop :=
  ∀ o', g.Reaches o o' → (f.get o').Nonempty

theorem cutsOnto_ofGrammar (hk : 1 ≤ k) (hK : k ≤ K) {o : SetOwner}
    (hfilled : Filled g (ofGrammar g K).value o) :
    CutsOnto k ((ofGrammar g K).value.get o) ((ofGrammar g k).value.get o) := by
  obtain ⟨-, hclosed⟩ := ofGrammar_closed g (Nat.le_trans hk hK)
  -- the passes for the small bound add what the sets for the large one, being closed, hold already
  suffices h : (ofGrammar g k).value.Within fun o x =>
      Filled g (ofGrammar g K).value o → ∃ s ∈ (ofGrammar g K).value.get o, s.take k = x from
    fun x hx => h o x hx hfilled
  refine ofGrammar_within ?_ ?_
  · intro id kind hkind f h x hx hfilled
    have hcuts : CutsOnto k (ofKind g K (ofGrammar g K).value kind) (ofKind g k f kind) := by
      apply carried_ofKind (carried_onto hk hK) hkind
      · intro o hdown y hy
        exact h o y hy fun o' hreaches => hfilled o' (hreaches.head hdown)
      · intro o hdown
        exact hfilled o (.single hdown)
    obtain ⟨s, hs, rfl⟩ := hcuts x hx
    exact ⟨s, hclosed.node id kind hkind s hs, rfl⟩
  · intro p hp x h hfilled
    obtain ⟨s, hs, rfl⟩ := h fun o hreaches => hfilled o (hreaches.head (.root hp))
    exact ⟨s, hclosed.production p hp s hs, rfl⟩

theorem filled_of_productive (hplanted : g.Planted) (hproductive : g.Productive) (hk : 1 ≤ k)
    {o : SetOwner} (howns : g.Owns o) : Filled g (ofGrammar g k).value o := by
  obtain ⟨-, hclosed⟩ := ofGrammar_closed g hk
  intro o' hreaches
  cases o' with
  | node id =>
    obtain ⟨w, hw⟩ := hproductive id (hreaches.owns_right hplanted howns)
    exact ⟨_, hclosed.take_mem hk hw⟩
  | production id =>
    have hid : id < g.productions.size := hreaches.owns_right hplanted howns
    have hp : g.productions[id] ∈ g.productions := Array.getElem_mem hid
    obtain ⟨w, hw⟩ := hproductive _ (hplanted.root_lt hp)
    have hmem := hclosed.production _ hp _ (hclosed.take_mem hk hw)
    rw [g.productions_numbered id _ (Array.getElem?_eq_getElem hid)] at hmem
    exact ⟨_, hmem⟩

end First

namespace Follow

variable {first first' f : SetFamily} {outer outer' : SequenceSet} {id : Nat} {kind : Node.Kind}

def Paired (R : SequenceSet → SequenceSet → Prop) :
    (sets sets' : List (SetOwner × SequenceSet)) → Prop :=
  List.Forall₂ fun p p' => p.1 = p'.1 ∧ R p.2 p'.2

theorem Paired.exists_left {sets sets' : List (SetOwner × SequenceSet)} (h : Paired R sets sets') :
    ∀ p' ∈ sets', ∃ p ∈ sets, p.1 = p'.1 ∧ R p.2 p'.2 := by
  induction h with
  | nil => simp
  | cons hp _ ih =>
    simp only [List.mem_cons, forall_eq_or_imp, exists_eq_or_imp]
    exact ⟨.inl hp, fun p' hp' => .inr (ih p' hp')⟩

theorem Paired.exists_right {sets sets' : List (SetOwner × SequenceSet)}
    (h : Paired R sets sets') : ∀ p ∈ sets, ∃ p' ∈ sets', p.1 = p'.1 ∧ R p.2 p'.2 := by
  induction h with
  | nil => simp
  | cons hp _ ih =>
    simp only [List.mem_cons, forall_eq_or_imp, exists_eq_or_imp]
    exact ⟨.inl hp, fun p' hp' => .inr (ih p' hp')⟩

section

variable (hcarried : Carried k K R Ok) (houter : R outer outer') (hgo : Ok outer)

include hcarried houter hgo

theorem carried_ofItems {items : List Nat}
    (hfirst : ∀ i ∈ items, R (first.node i) (first'.node i))
    (hitems : ∀ i ∈ items, Ok (first.node i)) :
    R (ofItems first K outer items).1 (ofItems first' k outer' items).1 ∧
      Ok (ofItems first K outer items).1 ∧
      Paired R (ofItems first K outer items).2 (ofItems first' k outer' items).2 := by
  induction items with
  | nil => exact ⟨houter, hgo, .nil⟩
  | cons i items ih =>
    simp only [List.mem_cons, forall_eq_or_imp] at hfirst hitems
    obtain ⟨hrest, hok, hsets⟩ := ih hfirst.2 hitems.2
    exact ⟨hcarried.concat hfirst.1 hrest hok, hcarried.ok_concat hitems.1 hok,
      .cons ⟨rfl, hrest⟩ hsets⟩

theorem carried_contributions (hfirst : ∀ i ∈ kind.children, R (first.node i) (first'.node i))
    (hitems : ∀ i ∈ kind.children, Ok (first.node i)) :
    Paired R (contributions g first K outer kind) (contributions g first' k outer' kind) := by
  have hloop {body : Nat} (h : R (first.node body) (first'.node body)) :
      R (((first.node body).kleene K).concat outer K)
        (((first'.node body).kleene k).concat outer' k) :=
    hcarried.concat (hcarried.kleene h) houter hgo
  cases kind with
  | sequence items => exact (carried_ofItems hcarried houter hgo hfirst hitems).2.2
  | choice items =>
    simp [Paired, contributions, houter, List.forall₂_map_left_iff, List.forall₂_map_right_iff]
  | zeroOrMore body | oneOrMore body =>
    exact .cons ⟨rfl, hloop (hfirst body (List.mem_singleton_self _))⟩ .nil
  | zeroOrOne body => exact .cons ⟨rfl, houter⟩ .nil
  | nonterminal name =>
    simp only [contributions]
    split
    · exact .cons ⟨rfl, houter⟩ .nil
    · exact .nil
  | lookahead la =>
    simp only [contributions]
    split
    · exact .cons ⟨rfl, hcarried.single (Nat.zero_le 1)⟩ .nil
    · exact .nil
  | token kind | tokenName name | literal image | action code => exact .nil

end

theorem owner_mem_ofItems {items : List Nat} :
    ∀ p ∈ (ofItems first k outer items).2, ∃ i ∈ items, p.1 = .node i := by
  induction items with
  | nil => simp [ofItems]
  | cons i items ih =>
    simp only [ofItems, List.mem_cons, forall_eq_or_imp, exists_eq_or_imp]
    exact ⟨.inl trivial, fun p hp => .inr (ih p hp)⟩

theorem down_of_mem_contributions (hkind : g.HasKind id kind) :
    ∀ p ∈ contributions g first k outer kind, g.Down (.node id) p.1 := by
  intro p hp
  have hpart {i : Nat} (hi : i ∈ kind.children) (howner : p.1 = .node i) :
      g.Down (.node id) p.1 := howner ▸ .part hkind hi
  cases kind with
  | sequence items =>
    obtain ⟨i, hi, howner⟩ := owner_mem_ofItems p hp
    exact hpart hi howner
  | choice items =>
    obtain ⟨i, hi, rfl⟩ := List.mem_map.1 hp
    exact hpart hi rfl
  | zeroOrMore body | oneOrMore body | zeroOrOne body =>
    obtain rfl := List.mem_singleton.1 hp
    exact hpart (List.mem_singleton_self _) rfl
  | nonterminal name =>
    rw [contributions] at hp
    split at hp
    · next q hq =>
      obtain rfl := List.mem_singleton.1 hp
      exact .reference hkind hq
    · cases hp
  | lookahead la =>
    rw [contributions] at hp
    split at hp
    · next nested hnested =>
      obtain rfl := List.mem_singleton.1 hp
      exact hpart (Option.mem_toList.2 hnested) rfl
    · cases hp
  | token kind | tokenName name | literal image | action code => cases hp

theorem ofGrammar_fits (g : Grammar) (first : SetFamily) (k : Nat) :
    (ofGrammar g first k).value.Fits g :=
  Saturation.run_keeps (fun f hf => (pass_adds f hf).1) (start_fits g) _

theorem cutsInto_ofGrammar (hk : 1 ≤ k) (hK : k ≤ K)
    (hbounded : first'.Within fun _ => Bounded g k)
    (hfirst : ∀ o, CutsInto k (first.get o) (first'.get o)) (o : SetOwner) :
    CutsInto k ((ofGrammar g first K).value.get o) ((ofGrammar g first' k).value.get o) := by
  have hclosed := ofGrammar_closed hk hbounded
  suffices h : (ofGrammar g first K).value.Within fun o x =>
      g.Owns o → x.take k ∈ (ofGrammar g first' k).value.get o from
    fun x hx => h o x hx ((ofGrammar_fits g first K).owns hx)
  refine ofGrammar_within ?_ ?_ ?_
  · intro p hp hends _
    rw [List.take_of_length_le hk]
    exact hclosed.ends p hp hends
  · intro p hp x hx howns
    exact hclosed.root p hp howns _ (hx (Grammar.id_lt_of_mem hp))
  · intro id kind hkind outer houter p hp x hx howns
    have hcuts : CutsInto k outer ((ofGrammar g first' k).value.node id) := fun y hy =>
      houter y hy hkind.lt
    have hpaired : Paired (CutsInto k) (contributions g first K outer kind)
        (contributions g first' k ((ofGrammar g first' k).value.node id) kind) :=
      carried_contributions (carried_into hk hK) hcuts trivial (fun i _ => hfirst (.node i))
        (by simp)
    obtain ⟨p', hp', howner, hset⟩ := hpaired.exists_right p hp
    rw [howner] at howns ⊢
    exact hclosed.contribution id kind hkind p' hp' howns _ (hset x hx)

def Filled (g : Grammar) (first f : SetFamily) (o : SetOwner) : Prop :=
  ∀ o', g.Reaches o' o → (f.get o').Nonempty ∧ First.Filled g first o'

theorem Filled.before {o o' : SetOwner} (h : Filled g first f o) (hreaches : g.Reaches o' o) :
    Filled g first f o' :=
  fun o'' hreaches' => h o'' (hreaches'.trans hreaches)

theorem cutsOnto_ofGrammar (hk : 1 ≤ k) (hK : k ≤ K)
    (hbounded : first.Within fun _ => Bounded g K)
    (hfirst : ∀ o, First.Filled g first o → CutsOnto k (first.get o) (first'.get o))
    {o : SetOwner} (hfilled : Filled g first (ofGrammar g first K).value o) :
    CutsOnto k ((ofGrammar g first K).value.get o) ((ofGrammar g first' k).value.get o) := by
  have hclosed := ofGrammar_closed (Nat.le_trans hk hK) hbounded
  suffices h : (ofGrammar g first' k).value.Within fun o x =>
      g.Owns o → Filled g first (ofGrammar g first K).value o →
        ∃ s ∈ (ofGrammar g first K).value.get o, s.take k = x from
    fun x hx => h o x hx ((ofGrammar_fits g first' k).owns hx) hfilled
  refine ofGrammar_within ?_ ?_ ?_
  · intro p hp hends _ _
    exact ⟨_, hclosed.ends p hp hends, List.take_of_length_le hk⟩
  · intro p hp x h howns hfilled
    obtain ⟨s, hs, rfl⟩ := h (Grammar.id_lt_of_mem hp) (hfilled.before (.single (.root hp)))
    exact ⟨s, hclosed.root p hp howns s hs, rfl⟩
  · intro id kind hkind outer houter p hp x hx howns hfilled
    -- what goes into the set of `p.1` has gone through that of `id`
    have hbefore := hfilled.before (.single (down_of_mem_contributions hkind p hp))
    obtain ⟨hgo, hparts⟩ := hbefore (.node id) .refl
    have hpart : ∀ i ∈ kind.children, First.Filled g first (.node i) := fun i hi o hreaches =>
      hparts o (hreaches.head (.part hkind hi))
    have hcuts : CutsOnto k ((ofGrammar g first K).value.node id) outer := fun y hy =>
      houter y hy hkind.lt hbefore
    have hpaired : Paired (CutsOnto k)
        (contributions g first K ((ofGrammar g first K).value.node id) kind)
        (contributions g first' k outer kind) :=
      carried_contributions (carried_onto hk hK) hcuts hgo
        (fun i hi => hfirst (.node i) (hpart i hi)) (fun i hi => hpart i hi (.node i) .refl)
    obtain ⟨p', hp', howner, hset⟩ := hpaired.exists_left p hp
    obtain ⟨s, hs, rfl⟩ := hset x hx
    rw [← howner] at howns ⊢
    exact ⟨s, hclosed.contribution id kind hkind p' hp' howns s hs, rfl⟩

theorem filled_of_reached (hplanted : g.Planted) (hproductive : g.Productive)
    (hreached : ∀ p ∈ g.productions, g.Reached p) (hk : 1 ≤ k) {o : SetOwner} (howns : g.Owns o) :
    Filled g (First.ofGrammar g k).value (ofGrammar g (First.ofGrammar g k).value k).value o := by
  obtain ⟨⟨-, hbounded⟩, hfirst⟩ := First.ofGrammar_closed g hk
  have hclosed := ofGrammar_closed hk hbounded
  intro o' hreaches
  have howns' := hreaches.owns_left howns
  refine ⟨?_, First.filled_of_productive hplanted hproductive hk howns'⟩
  cases o' with
  | node id =>
    obtain ⟨w, hw⟩ := hplanted.exists_follows hproductive hreached howns'
    exact ⟨_, hclosed.take_mem hfirst hk hw howns'⟩
  | production id =>
    have hp : g.productions[id] ∈ g.productions := Array.getElem_mem howns'
    obtain ⟨w, hw⟩ := (hreached _ hp).exists_follows hproductive
    have hmem := hclosed.take_mem_production hfirst hk hplanted hp hw
    rw [g.productions_numbered id _ (Array.getElem?_eq_getElem howns')] at hmem
    exact ⟨_, hmem⟩

end Follow

namespace Grammar

def firstWithin (g : Grammar) (k : Nat) : SetFamily := (First.ofGrammar g k).value

def followWithin (g : Grammar) (k : Nat) : SetFamily :=
  (Follow.ofGrammar g (g.firstWithin k) k).value

theorem computeSets_within (g : Grammar) (options : Options) :
    let configured := { g with options := options }
    configured.computeSets.1.first = g.firstWithin configured.setBound ∧
      configured.computeSets.1.follow = g.followWithin configured.setBound :=
  ⟨rfl, rfl⟩

/-- Sets computed with a large bound are, cut to a small one, within those computed with the small
one, and the same where no set that goes into them is empty. That is so everywhere in a grammar
where every node derives something and every production is reached. The options of a grammar come
into its sets by the bound alone. -/
theorem truncate_sets (g : Grammar) (hbuilt : g.Built) {k K : Nat} (hk : 1 ≤ k) (hK : k ≤ K) :
    let first := g.firstWithin K
    let follow := g.followWithin K
    (∀ o, CutsInto k (first.get o) ((g.firstWithin k).get o) ∧
      CutsInto k (follow.get o) ((g.followWithin k).get o)) ∧
    (∀ o, First.Filled g first o → (first.get o).truncate k = (g.firstWithin k).get o) ∧
    (∀ o, Follow.Filled g first follow o →
      (follow.get o).truncate k = (g.followWithin k).get o) ∧
    (g.Productive → ∀ o, g.Owns o → First.Filled g first o) ∧
    (g.Productive → (∀ p ∈ g.productions, g.Reached p) → ∀ o, g.Owns o →
      Follow.Filled g first follow o) ∧
    ∀ options : Options,
      let configured := { g with options := options }
      configured.computeSets.1.first = g.firstWithin configured.setBound ∧
        configured.computeSets.1.follow = g.followWithin configured.setBound := by
  intro first follow
  obtain ⟨⟨-, hlarge⟩, -⟩ := First.ofGrammar_closed g (Nat.le_trans hk hK)
  obtain ⟨⟨-, hsmall⟩, -⟩ := First.ofGrammar_closed g hk
  have hfirst := First.cutsInto_ofGrammar g hk hK
  have hfollow := Follow.cutsInto_ofGrammar (g := g) hk hK hsmall hfirst
  have honto {o : SetOwner} (hfilled : First.Filled g first o) :
      CutsOnto k (first.get o) ((g.firstWithin k).get o) :=
    First.cutsOnto_ofGrammar hk hK hfilled
  refine ⟨fun o => ⟨hfirst o, hfollow o⟩, ?_, ?_, ?_, ?_, g.computeSets_within⟩
  · intro o hfilled
    exact truncate_eq (hfirst o) (honto hfilled)
  · intro o hfilled
    exact truncate_eq (hfollow o)
      (Follow.cutsOnto_ofGrammar hk hK hlarge (fun _ => honto) hfilled)
  · intro hproductive o
    exact First.filled_of_productive hbuilt.planted hproductive (Nat.le_trans hk hK)
  · intro hproductive hreached o
    exact Follow.filled_of_reached hbuilt.planted hproductive hreached (Nat.le_trans hk hK)

theorem truncate_sets_pairOfItems :
    pairOfItems.Built ∧ 1 ≤ 1 ∧ 1 ≤ 2 ∧
      ∀ o, pairOfItems.Owns o →
        ((pairOfItems.firstWithin 2).get o).truncate 1 = (pairOfItems.firstWithin 1).get o ∧
        ((pairOfItems.followWithin 2).get o).truncate 1 = (pairOfItems.followWithin 1).get o := by
  have hle : 1 ≤ 2 := by decide
  obtain ⟨-, hfirst, hfollow, hproductive, hreached, -⟩ :=
    truncate_sets pairOfItems built_pairOfItems (Nat.le_refl 1) hle
  refine ⟨built_pairOfItems, Nat.le_refl 1, hle, fun o howns => ⟨?_, ?_⟩⟩
  · exact hfirst o (hproductive pairOfItems_productive o howns)
  · exact hfollow o (hreached pairOfItems_productive pairOfItems_reached o howns)

/-- In `B → "x" B`, one token of what `B` begins with is found without asking for a second one, and
two are not found as nothing comes after. In `S →`, `X → X? "x"`, nothing comes after `X`, and the
same goes for what follows `X?`. -/
theorem truncate_sets_needs_filled :
    let endless := (ofDeclarations {}
      [.production "B" none .none (.seq [.literal "x", .nonterminal "B"])]).validate
    let apart := (ofDeclarations {}
      [.production "S" none .none (.seq []),
        .production "X" none .none (.seq [.opt (.nonterminal "X"), .literal "x"])]).validate
    (endless.2 = [] ∧ ((endless.1.firstWithin 2).node 2).truncate 1 ≠
      (endless.1.firstWithin 1).node 2) ∧
    (apart.2 = [] ∧ ((apart.1.followWithin 2).node 2).truncate 1 ≠
      (apart.1.followWithin 1).node 2) := by
  decide +kernel

end Grammar
end PredictiveParsing
