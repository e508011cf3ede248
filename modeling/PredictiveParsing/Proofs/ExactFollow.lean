import PredictiveParsing.Proofs.FollowSets
import PredictiveParsing.Proofs.Trees

/-!
# FOLLOW sets are exact

Where every node derives something and every production can be reached, something can come after
every node: what comes after the root of a production goes down its tree. So where a concatenation
takes a beginning that fills the bound, there is something to go on with, and no pass adds what
cannot follow. The root of a production is a part of no node and the root of no other production, so
that what follows it has come through the production. Main statement: `follow_exact`.
-/
namespace PredictiveParsing

open SequenceSet PredictiveParsing.SetFamily

namespace Grammar

variable {g : Grammar} {id i : Nat} {kind : Node.Kind} {p : Production}

inductive Reached (g : Grammar) : Production → Prop
  | start {p : Production} (hp : p ∈ g.productions) (h : g.start? = some p.id) : Reached g p
  | unreferenced {p : Production} (hp : p ∈ g.productions) (h : g.Unreferenced p) : Reached g p
  | reference {p q : Production} {id : Nat} {name : String} (hq : Reached g q) (hid : g.Has q id)
      (h : g.HasKind id (.nonterminal name)) (hp : g.production? name = some p) : Reached g p

theorem Productive.items (h : g.Productive) {items : List Nat}
    (hkind : g.HasKind id (.sequence items)) : ∀ i ∈ items, ∃ w, g.Derives i w := by
  obtain ⟨w, hw⟩ := h id hkind.lt
  exact First.exists_derives_item hkind hw

section

variable (hproductive : g.Productive)

include hproductive

theorem Follows.exists_part {f : List Nat} (hf : g.Follows id f) (hkind : g.HasKind id kind)
    (hi : i ∈ kind.children) : ∃ f, g.Follows i f := by
  have hnone (body : Nat) : ∀ w ∈ ([] : List (List Nat)), g.Derives body w := by simp
  cases kind with
  | sequence items =>
    obtain ⟨before, after, rfl⟩ := List.append_of_mem hi
    have hafter : ∀ j ∈ after, ∃ w, g.Derives j w := fun j hj =>
      hproductive.items hkind j (List.mem_append_right _ (List.mem_cons_of_mem _ hj))
    obtain ⟨w, hw⟩ := exists_derivesAll hafter
    exact ⟨_, .item hkind hw hf⟩
  | choice items => exact ⟨f, .alternative hkind hi hf⟩
  | zeroOrMore body =>
    obtain rfl := List.mem_singleton.1 hi
    exact ⟨_, .zeroOrMore hkind (hnone _) hf⟩
  | oneOrMore body =>
    obtain rfl := List.mem_singleton.1 hi
    exact ⟨_, .oneOrMore hkind (hnone _) hf⟩
  | zeroOrOne body =>
    obtain rfl := List.mem_singleton.1 hi
    exact ⟨f, .zeroOrOne hkind hf⟩
  | lookahead la => exact ⟨[], .scanned hkind (Option.mem_toList.1 hi)⟩
  | nonterminal name | token kind | tokenName name | literal image | action code =>
    exact absurd hi List.not_mem_nil

theorem Follows.exists_of_has {f : List Nat} (hf : g.Follows p.root f) (hid : g.Has p id) :
    ∃ f, g.Follows id f := by
  induction hid with
  | refl => exact ⟨f, hf⟩
  | @tail a b _ hpart ih =>
    obtain ⟨f', hf'⟩ := ih
    have hlt : a < g.nodes.size := by
      by_contra hge
      have hkind : g.kindOf a = .sequence [] := by
        rw [kindOf, Array.getElem?_eq_none (Nat.le_of_not_lt hge)]
        rfl
      rw [HasPart, hkind] at hpart
      cases hpart
    exact hf'.exists_part hproductive (hasKind_kindOf hlt) hpart

theorem Reached.exists_follows (h : g.Reached p) : ∃ f, g.Follows p.root f := by
  induction h with
  | start hp hstart => exact ⟨_, .start hp hstart⟩
  | unreferenced hp hnone => exact ⟨_, .unreferenced hp hnone⟩
  | reference _ hid hkind hp ih =>
    obtain ⟨f, hf⟩ := ih
    obtain ⟨f', hf'⟩ := hf.exists_of_has hproductive hid
    exact ⟨f', .reference hkind hp hf'⟩

theorem Planted.exists_follows (h : g.Planted) (hreached : ∀ p ∈ g.productions, g.Reached p)
    (hid : id < g.nodes.size) : ∃ f, g.Follows id f := by
  obtain ⟨p, hp, hhas⟩ := h.exists_has hid
  obtain ⟨f, hf⟩ := (hreached p hp).exists_follows hproductive
  exact hf.exists_of_has hproductive hhas

end

end Grammar

namespace Follow

variable {g : Grammar} {first f : SetFamily} {k id : Nat} {p : Production}

def Continued (g : Grammar) (k : Nat) : SetOwner → List Nat → Prop
  | .node id, x => ∃ f, g.Follows id f ∧ f.take k = x
  | .production id, x =>
    ∃ p ∈ g.productions, p.id = id ∧ ∃ f, g.Follows p.root f ∧ f.take k = x

section

variable (hproductive : g.Productive) (hfirst : first.Within (First.Derived g k))
  {outer : SequenceSet} (houter : ∀ x ∈ outer, Continued g k (.node id) x)
  (hgo : ∃ f, g.Follows id f)

include hfirst houter hgo

theorem continued_loop {body : Nat} {x : List Nat}
    (hx : x ∈ ((first.node body).kleene k).concat outer k) :
    ∃ ws : List (List Nat), ∃ f, (∀ w ∈ ws, g.Derives body w) ∧ g.Follows id f ∧
      (ws.flatten ++ f).take k = x := by
  have hkleene : ∀ s ∈ (first.node body).kleene k,
      ∃ u, Repeated (g.Derives body) u ∧ u.take k = s :=
    fun _ hs => exists_of_mem_kleene (hfirst (.node body)) hs
  obtain ⟨_, f, ⟨ws, hws, rfl⟩, hf, hx⟩ := exists_of_mem_concat hkleene houter hgo hx
  exact ⟨ws, f, hws, hf, hx⟩

include hproductive

theorem continued_ofItems {before items : List Nat}
    (hkind : g.HasKind id (.sequence (before ++ items))) :
    (∀ x ∈ (ofItems first k outer items).1,
      ∃ v, (∃ w f, g.DerivesAll items w ∧ g.Follows id f ∧ w ++ f = v) ∧ v.take k = x) ∧
    ∀ p ∈ (ofItems first k outer items).2, ∀ x ∈ p.2, Continued g k p.1 x := by
  induction items generalizing before with
  | nil =>
    refine ⟨fun x hx => ?_, by simp [ofItems]⟩
    obtain ⟨f, hf, hx⟩ := houter x hx
    exact ⟨f, ⟨[], f, .nil, hf, rfl⟩, hx⟩
  | cons i items ih =>
    have hrest : g.HasKind id (.sequence ((before ++ [i]) ++ items)) := by
      rwa [List.append_assoc, List.singleton_append]
    obtain ⟨htogether, heach⟩ := ih hrest
    refine ⟨fun x hx => ?_, List.forall_mem_cons.2 ⟨fun x hx => ?_, heach⟩⟩
    · -- where `i` fills the bound the rest is not asked, but there has to be something
      have hlater : ∃ v, ∃ w f, g.DerivesAll items w ∧ g.Follows id f ∧ w ++ f = v := by
        obtain ⟨w, hw⟩ := Grammar.exists_derivesAll fun j hj =>
          hproductive.items hkind j (List.mem_append_right _ (List.mem_cons_of_mem _ hj))
        obtain ⟨f, hf⟩ := hgo
        exact ⟨w ++ f, w, f, hw, hf, rfl⟩
      obtain ⟨u, _, hu, ⟨w, f, hw, hf, rfl⟩, hx⟩ :=
        exists_of_mem_concat (hfirst (.node i)) htogether hlater hx
      exact ⟨_, ⟨u ++ w, f, hw.cons hu, hf, rfl⟩, by rw [List.append_assoc, hx]⟩
    · obtain ⟨_, ⟨w, f, hw, hf, rfl⟩, hx⟩ := htogether x hx
      exact ⟨w ++ f, .item hkind hw hf, hx⟩

theorem continued_contributions {kind : Node.Kind} (hkind : g.HasKind id kind) :
    ∀ p ∈ contributions g first k outer kind, ∀ x ∈ p.2, Continued g k p.1 x := by
  intro p hp x hx
  cases kind with
  | sequence items =>
    have hitems : g.HasKind id (.sequence ([] ++ items)) := hkind
    exact (continued_ofItems hproductive hfirst houter hgo hitems).2 p hp x hx
  | choice items =>
    obtain ⟨i, hi, rfl⟩ := List.mem_map.1 hp
    obtain ⟨f, hf, rfl⟩ := houter x hx
    exact ⟨f, .alternative hkind hi hf, rfl⟩
  | zeroOrMore body =>
    obtain rfl := List.mem_singleton.1 hp
    obtain ⟨ws, f, hws, hf, rfl⟩ := continued_loop hfirst houter hgo hx
    exact ⟨_, .zeroOrMore hkind hws hf, rfl⟩
  | oneOrMore body =>
    obtain rfl := List.mem_singleton.1 hp
    obtain ⟨ws, f, hws, hf, rfl⟩ := continued_loop hfirst houter hgo hx
    exact ⟨_, .oneOrMore hkind hws hf, rfl⟩
  | zeroOrOne body =>
    obtain rfl := List.mem_singleton.1 hp
    obtain ⟨f, hf, rfl⟩ := houter x hx
    exact ⟨f, .zeroOrOne hkind hf, rfl⟩
  | nonterminal name =>
    rw [contributions] at hp
    split at hp
    · next q hq =>
      obtain rfl := List.mem_singleton.1 hp
      obtain ⟨f, hf, rfl⟩ := houter x hx
      exact ⟨q, Grammar.mem_of_production? hq, rfl, f, .reference hkind hq hf, rfl⟩
    · exact absurd hp List.not_mem_nil
  | lookahead la =>
    rw [contributions] at hp
    split at hp
    · next nested hnested =>
      obtain rfl := List.mem_singleton.1 hp
      exact ⟨[], .scanned hkind hnested, by rw [mem_epsilon.1 hx, List.take_nil]⟩
    · exact absurd hp List.not_mem_nil
  | token kind => exact absurd hp List.not_mem_nil
  | tokenName name => exact absurd hp List.not_mem_nil
  | literal image => exact absurd hp List.not_mem_nil
  | action code => exact absurd hp List.not_mem_nil

end

theorem follows_of_endsInput (hp : p ∈ g.productions) (hends : endsInput g p = true) :
    g.Follows p.root [eofKind] := by
  rcases (endsInput_iff hp).1 hends with hstart | hnone
  · exact .start hp hstart
  · exact .unreferenced hp hnone

theorem ofGrammar_continued (hk : 1 ≤ k) (hproductive : g.Productive)
    (hfirst : first.Within (First.Derived g k))
    (hgo : ∀ id < g.nodes.size, ∃ f, g.Follows id f) :
    (ofGrammar g first k).value.Within (Continued g k) := by
  refine ofGrammar_within ?_ ?_ ?_
  · intro p hp hends
    exact ⟨p, hp, rfl, _, follows_of_endsInput hp hends, List.take_of_length_le hk⟩
  · intro p hp x hx
    obtain ⟨q, hq, hid, hfollows⟩ := hx
    rwa [← Grammar.eq_of_id_eq hq hp hid]
  · intro id kind hkind outer houter
    exact continued_contributions hproductive hfirst houter (hgo id hkind.lt) hkind

theorem Closed.take_mem_production (h : Closed g first k f) (hfirst : First.Closed g k first)
    (hk : 1 ≤ k) (hplanted : g.Planted) (hp : p ∈ g.productions) {w : List Nat}
    (hw : g.Follows p.root w) : w.take k ∈ f.production p.id := by
  have hsame {q : Production} (hq : q ∈ g.productions) (hroot : q.root = p.root) : q = p :=
    hplanted.eq_of_root_eq hq hp hroot
  have hends (hends : endsInput g p = true) : [eofKind].take k ∈ f.production p.id := by
    rw [List.take_of_length_le hk]
    exact h.ends p hp hends
  have hpart {id : Nat} {kind : Node.Kind} (hkind : g.HasKind id kind)
      (hmem : p.root ∈ kind.children) {P : Prop} : P := absurd hmem (hplanted.root_free hp hkind)
  generalize hroot : p.root = root at hw
  cases hw with
  | start hq hstart =>
    obtain rfl := hsame hq hroot.symm
    exact hends ((endsInput_iff hq).2 (.inl hstart))
  | unreferenced hq hnone =>
    obtain rfl := hsame hq hroot.symm
    exact hends ((endsInput_iff hq).2 (.inr hnone))
  | scanned hkind hnested => exact hpart hkind (by simp [Node.Kind.children, hnested, hroot])
  | item hkind => exact hpart hkind (by simp [Node.Kind.children, hroot])
  | alternative hkind hi => exact hpart hkind (by simpa [Node.Kind.children, hroot] using hi)
  | zeroOrMore hkind => exact hpart hkind (by simp [Node.Kind.children, hroot])
  | oneOrMore hkind => exact hpart hkind (by simp [Node.Kind.children, hroot])
  | zeroOrOne hkind => exact hpart hkind (by simp [Node.Kind.children, hroot])
  | reference hkind hq hf =>
    obtain rfl := hsame (Grammar.mem_of_production? hq) hroot.symm
    refine h.contribution _ _ hkind (.production _, _) ?_ (Grammar.id_lt_of_mem hp) _
      (h.take_mem hfirst hk hf hkind.lt)
    rw [contributions, hq]
    exact List.mem_singleton_self _

end Follow

namespace Grammar

/-- In a grammar where every node derives something and every production is reached, FOLLOW sets
hold what can follow, cut to the bound, and nothing else. -/
theorem follow_exact (g : Grammar) (hbuilt : g.Built) (hproductive : g.Productive)
    (hreached : ∀ p ∈ g.productions, g.Reached p) :
    let s := g.computeSets.1
    (∀ id < g.nodes.size, ∀ x,
      x ∈ s.follow.node id ↔ ∃ f, g.Follows id f ∧ f.take s.k = x) ∧
    ∀ p ∈ g.productions, ∀ x,
      x ∈ s.follow.production p.id ↔ ∃ f, g.Follows p.root f ∧ f.take s.k = x := by
  intro s
  have hk : 1 ≤ s.k := g.one_le_setBound
  obtain ⟨⟨-, hbounded⟩, hfirst⟩ := First.ofGrammar_closed g hk
  have hclosed : Follow.Closed g s.first s.k s.follow := Follow.ofGrammar_closed hk hbounded
  have hgo : ∀ id < g.nodes.size, ∃ f, g.Follows id f := fun id hid =>
    hbuilt.planted.exists_follows hproductive hreached hid
  have hcontinued : s.follow.Within (Follow.Continued g s.k) :=
    Follow.ofGrammar_continued hk hproductive (First.ofGrammar_derived hk hproductive) hgo
  refine ⟨fun id hid x => ⟨hcontinued (.node id) x, ?_⟩, fun p hp x => ⟨fun hx => ?_, ?_⟩⟩
  · rintro ⟨f, hf, rfl⟩
    exact g.take_mem_follow hf hid
  · obtain ⟨q, hq, hid, hfollows⟩ := hcontinued (.production p.id) x hx
    rwa [← eq_of_id_eq hq hp hid]
  · rintro ⟨f, hf, rfl⟩
    exact hclosed.take_mem_production hfirst hk hbuilt.planted hp hf

/-- `Pair → Item Item`, `Item → "x"`. -/
def pairOfItems : Grammar :=
  (ofDeclarations {}
    [.production "Pair" none .none (.seq [.nonterminal "Item", .nonterminal "Item"]),
      .production "Item" none .none (.literal "x")]).validate.1

theorem built_pairOfItems : pairOfItems.Built := .validated (.declared _ _)

theorem pairOfItems_productive : pairOfItems.Productive := by
  have htoken : pairOfItems.HasKind 3 (.token 1) := rfl
  have hitem : pairOfItems.Derives 3 [1] := .token htoken
  have hfirst : pairOfItems.HasKind 0 (.nonterminal "Item") := rfl
  have hsecond : pairOfItems.HasKind 1 (.nonterminal "Item") := rfl
  have hzero : pairOfItems.Derives 0 [1] := .nonterminal hfirst rfl hitem
  have hone : pairOfItems.Derives 1 [1] := .nonterminal hsecond rfl hitem
  intro id hid
  have hsize : pairOfItems.nodes.size = 4 := rfl
  match id, hsize ▸ hid with
  | 0, _ => exact ⟨[1], hzero⟩
  | 1, _ => exact ⟨[1], hone⟩
  | 2, _ =>
    exact ⟨_, @Derives.sequence pairOfItems 2 [(0, [1]), (1, [1])] rfl (by simp [hzero, hone])⟩
  | 3, _ => exact ⟨[1], hitem⟩

theorem pairOfItems_reached : ∀ p ∈ pairOfItems.productions, pairOfItems.Reached p := by
  have hproductions : pairOfItems.productions =
      #[⟨"Pair", 0, 2, none, .none⟩, ⟨"Item", 1, 3, none, .none⟩] := rfl
  have hpair : pairOfItems.Reached ⟨"Pair", 0, 2, none, .none⟩ :=
    .start (by rw [hproductions]; simp) rfl
  have hhas : pairOfItems.Has ⟨"Pair", 0, 2, none, .none⟩ 0 := by
    have hpart : pairOfItems.HasPart 2 0 := List.mem_cons_self
    exact .single hpart
  have hkind : pairOfItems.HasKind 0 (.nonterminal "Item") := rfl
  intro p hp
  rw [hproductions] at hp
  have hp : p = ⟨"Pair", 0, 2, none, .none⟩ ∨ p = ⟨"Item", 1, 3, none, .none⟩ := by simpa using hp
  rcases hp with rfl | rfl
  · exact hpair
  · exact .reference hpair hhas hkind rfl

theorem follow_exact_pairOfItems :
    pairOfItems.Built ∧ pairOfItems.Productive ∧
      (∀ p ∈ pairOfItems.productions, pairOfItems.Reached p) ∧
      ∀ x, x ∈ pairOfItems.computeSets.1.follow.production 1 ↔
        ∃ f, pairOfItems.Follows 3 f ∧ f.take pairOfItems.computeSets.1.k = x :=
  ⟨built_pairOfItems, pairOfItems_productive, pairOfItems_reached,
    (follow_exact pairOfItems built_pairOfItems pairOfItems_productive pairOfItems_reached).2
      ⟨"Item", 1, 3, none, .none⟩ (Array.mem_of_getElem? (i := 1) rfl)⟩

end Grammar
end PredictiveParsing
