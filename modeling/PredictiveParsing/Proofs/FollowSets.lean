import PredictiveParsing.Proofs.FirstSets

/-!
# FOLLOW sets are complete

The FOLLOW set of a node holds, cut to the bound, everything that can come after the node. A pass
adds to the set of a node what its parent, or the production it is the root of, hands down, and the
sets that a pass leaves as they are lose nothing on any way down. Main statement: `take_mem_follow`.
-/
namespace PredictiveParsing

open SequenceSet PredictiveParsing.SetFamily

namespace Follow

variable {g : Grammar} {first f : SetFamily} {k : Nat}

def rootStep (f : SetFamily) (p : Production) : SetFamily :=
  f.add (.node p.root) (f.production p.id)

def nodeStep (g : Grammar) (first : SetFamily) (k : Nat) (f : SetFamily) (id : Nat) : SetFamily :=
  addAll f (contributions g first k (f.node id) (g.kindOf id))

theorem pass_eq (g : Grammar) (first : SetFamily) (k : Nat) (f : SetFamily) :
    pass g first k f =
      g.nodeIds.reverse.foldl (nodeStep g first k) (g.productions.toList.foldl rootStep f) :=
  congrArg (g.nodeIds.reverse.foldl (nodeStep g first k)) (Array.foldl_toList rootStep).symm

theorem rootSteps_add : Adds g (g.productions.toList.foldl rootStep ·) :=
  .foldl fun p _ => adds_add (.node p.root) fun f => f.production p.id

theorem nodeSteps_add : Adds g (g.nodeIds.reverse.foldl (nodeStep g first k) ·) :=
  .foldl fun id _ => adds_addAll fun f => contributions g first k (f.node id) (g.kindOf id)

theorem pass_adds : Adds g (pass g first k) := by
  intro f hf
  rw [pass_eq]
  exact rootSteps_add.comp nodeSteps_add f hf

theorem Within.addAll {P : SetOwner → List Nat → Prop} (hf : f.Fits g) (h : f.Within P)
    {sets : List (SetOwner × SequenceSet)} (hsets : ∀ p ∈ sets, ∀ x ∈ p.2, P p.1 x) :
    (addAll f sets).Within P :=
  Within.foldl (fun p _ => adds_add p.1 fun _ => p.2)
    (fun p hp _ hf h => h.add hf fun x hx _ => hsets p hp x hx) hf h

theorem bounded_ofItems {outer : SequenceSet} (hfirst : first.Within fun _ => Bounded g k)
    (houter : ∀ x ∈ outer, Bounded g k x) (items : List Nat) :
    (∀ x ∈ (ofItems first k outer items).1, Bounded g k x) ∧
      ∀ p ∈ (ofItems first k outer items).2, ∀ x ∈ p.2, Bounded g k x := by
  induction items with
  | nil => exact ⟨houter, by simp [ofItems]⟩
  | cons i items ih =>
    exact ⟨bounded_concat (hfirst (.node i)) ih.1, List.forall_mem_cons.2 ih⟩

theorem bounded_contributions {outer : SequenceSet} (hfirst : first.Within fun _ => Bounded g k)
    (houter : ∀ x ∈ outer, Bounded g k x) (kind : Node.Kind) :
    ∀ p ∈ contributions g first k outer kind, ∀ x ∈ p.2, Bounded g k x := by
  have hloop (body : Nat) : ∀ x ∈ ((first.node body).kleene k).concat outer k, Bounded g k x :=
    bounded_concat (bounded_kleene (hfirst (.node body))) houter
  intro p hp x hx
  cases kind with
  | sequence items => exact (bounded_ofItems hfirst houter items).2 p hp x hx
  | choice items =>
    obtain ⟨i, -, rfl⟩ := List.mem_map.1 hp
    exact houter x hx
  | zeroOrMore body =>
    obtain rfl := List.mem_singleton.1 hp
    exact hloop body x hx
  | oneOrMore body =>
    obtain rfl := List.mem_singleton.1 hp
    exact hloop body x hx
  | zeroOrOne body =>
    obtain rfl := List.mem_singleton.1 hp
    exact houter x hx
  | nonterminal name =>
    rw [contributions] at hp
    split at hp
    · obtain rfl := List.mem_singleton.1 hp
      exact houter x hx
    · exact absurd hp List.not_mem_nil
  | lookahead la =>
    rw [contributions] at hp
    split at hp
    · obtain rfl := List.mem_singleton.1 hp
      exact mem_epsilon.1 hx ▸ bounded_nil g k
    · exact absurd hp List.not_mem_nil
  | token kind => exact absurd hp List.not_mem_nil
  | tokenName name => exact absurd hp List.not_mem_nil
  | literal image => exact absurd hp List.not_mem_nil
  | action code => exact absurd hp List.not_mem_nil

theorem pass_keeps {P : SetOwner → List Nat → Prop}
    (hroot : ∀ p ∈ g.productions, ∀ x, P (.production p.id) x → P (.node p.root) x)
    (hnode : ∀ id kind, g.HasKind id kind → ∀ outer : SequenceSet, (∀ x ∈ outer, P (.node id) x) →
      ∀ p ∈ contributions g first k outer kind, ∀ x ∈ p.2, P p.1 x)
    (hf : f.Fits g) (h : f.Within P) : (pass g first k f).Within P := by
  rw [pass_eq]
  refine Within.foldl
    (fun id _ => adds_addAll fun f => contributions g first k (f.node id) (g.kindOf id))
    (fun id hid f hf h => ?_) (rootSteps_add f hf).1 ?_
  · have hlt := List.mem_range.1 (List.mem_reverse.1 hid)
    exact Within.addAll hf h (hnode id _ (Grammar.hasKind_kindOf hlt) _ (h (.node id)))
  · refine Within.foldl (fun p _ => adds_add (.node p.root) fun f => f.production p.id)
      (fun p hp f hf h => ?_) hf h
    exact h.add hf fun x hx _ => hroot p (Array.mem_toList_iff.1 hp) x (h (.production p.id) x hx)

structure Closed (g : Grammar) (first : SetFamily) (k : Nat) (f : SetFamily) : Prop where
  ends : ∀ p ∈ g.productions, endsInput g p = true → [eofKind] ∈ f.production p.id
  root : ∀ p ∈ g.productions, p.root < g.nodes.size → ∀ x ∈ f.production p.id, x ∈ f.node p.root
  contribution : ∀ id kind, g.HasKind id kind → ∀ p ∈ contributions g first k (f.node id) kind,
    g.Owns p.1 → ∀ x ∈ p.2, x ∈ f.get p.1

def startStep (g : Grammar) (f : SetFamily) (p : Production) : SetFamily :=
  if endsInput g p then f.add (.production p.id) (.token eofKind) else f

theorem start_eq (g : Grammar) : start g = g.productions.toList.foldl (startStep g) (.empty g) :=
  (Array.foldl_toList _).symm

theorem startStep_adds (p : Production) : Adds g (startStep g · p) := by
  intro f hf
  unfold startStep
  split
  · exact adds_add (.production p.id) (fun _ => .token eofKind) f hf
  · exact ⟨hf, .refl f⟩

theorem start_fits (g : Grammar) : (start g).Fits g := by
  rw [start_eq]
  exact (Adds.foldl (fun p _ => startStep_adds p) _ (.empty g)).1

theorem bounded_eof (hk : 1 ≤ k) : Bounded g k [eofKind] :=
  ⟨hk, fun _ ht => List.mem_singleton.1 ht ▸ Finset.mem_insert_self _ _⟩

theorem start_keeps {P : SetOwner → List Nat → Prop}
    (hends : ∀ p ∈ g.productions, endsInput g p = true → P (.production p.id) [eofKind]) :
    (start g).Within P := by
  rw [start_eq]
  refine Within.foldl (fun p _ => startStep_adds p) (fun p hp f hf h => ?_) (.empty g) (.empty _ g)
  unfold startStep
  split
  · next hend =>
    refine h.add hf fun x hx _ => ?_
    rw [mem_token.1 hx]
    exact hends p (Array.mem_toList_iff.1 hp) hend
  · exact h

theorem start_within (hk : 1 ≤ k) : (start g).Within fun _ => Bounded g k :=
  start_keeps fun _ _ _ => bounded_eof hk

theorem ofGrammar_within {P : SetOwner → List Nat → Prop}
    (hends : ∀ p ∈ g.productions, endsInput g p = true → P (.production p.id) [eofKind])
    (hroot : ∀ p ∈ g.productions, ∀ x, P (.production p.id) x → P (.node p.root) x)
    (hnode : ∀ id kind, g.HasKind id kind → ∀ outer : SequenceSet, (∀ x ∈ outer, P (.node id) x) →
      ∀ p ∈ contributions g first k outer kind, ∀ x ∈ p.2, P p.1 x) :
    (ofGrammar g first k).value.Within P := by
  have hpass : ∀ f : SetFamily, f.Fits g ∧ f.Within P →
      (pass g first k f).Fits g ∧ (pass g first k f).Within P := fun f hf =>
    ⟨(pass_adds f hf.1).1, pass_keeps hroot hnode hf.1 hf.2⟩
  exact (Saturation.run_keeps hpass ⟨start_fits g, start_keeps hends⟩ _).2

theorem eof_mem_start {p : Production} (hp : p ∈ g.productions) (hends : endsInput g p = true) :
    [eofKind] ∈ (start g).production p.id := by
  obtain ⟨before, after, hsplit⟩ := List.append_of_mem (Array.mem_toList_iff.2 hp)
  rw [start_eq, hsplit, List.foldl_append, List.foldl_cons]
  have hbefore : (before.foldl (startStep g) (.empty g)).Fits g :=
    (Adds.foldl (fun q _ => startStep_adds q) _ (.empty g)).1
  have hafter :=
    (Adds.foldl (l := after) fun q _ => startStep_adds q) _ (startStep_adds p _ hbefore).1
  refine hafter.2 (.production p.id) _ ?_
  simp only [startStep, if_pos hends]
  exact (mem_get_add hbefore).2 (.inr ⟨rfl, Grammar.id_lt_of_mem hp, mem_token.2 rfl⟩)

/-- What an owner hands down, and to whom: a production to its root, and a node to its parts or to
the production that it names. -/
def given (g : Grammar) (first : SetFamily) (k : Nat) (f : SetFamily) :
    SetOwner → List (SetOwner × SequenceSet)
  | .node id => contributions g first k (f.node id) (g.kindOf id)
  | .production id =>
    (g.productions[id]?.map fun p => (.node p.root, f.production id)).toList

def visit (g : Grammar) (first : SetFamily) (k : Nat) (f : SetFamily) (o : SetOwner) : SetFamily :=
  addAll f (given g first k f o)

theorem given_production {p : Production} (hp : p ∈ g.productions) :
    given g first k f (.production p.id) = [(.node p.root, f.production p.id)] := by
  rw [given, Grammar.getElem?_id hp]
  rfl

theorem pass_eq_visits (g : Grammar) (first : SetFamily) (k : Nat) (f : SetFamily) :
    pass g first k f =
      (g.productionOwners ++ g.nodeOwners.reverse).foldl (visit g first k) f := by
  have hroot (f : SetFamily) (p : Production) (hp : p ∈ g.productions) :
      visit g first k f (.production p.id) = rootStep f p := by
    rw [visit, given_production hp]
    rfl
  rw [pass_eq, List.foldl_append, Grammar.foldl_productionOwners hroot, Grammar.nodeOwners,
    ← List.map_reverse, List.foldl_map]
  rfl

theorem owns_of_mem_given {o : SetOwner} {c : SetOwner × SequenceSet}
    (hc : c ∈ given g first k f o) : g.Owns o := by
  by_contra howns
  cases o with
  | node id =>
    have hnone : g.nodes[id]? = none := Array.getElem?_eq_none (Nat.le_of_not_lt howns)
    rw [given, Grammar.kindOf, hnone] at hc
    cases hc
  | production id =>
    rw [given, Array.getElem?_eq_none (Nat.le_of_not_lt howns)] at hc
    cases hc

theorem handing_given (hfirst : first.Within fun _ => Bounded g k) :
    Handing g k (given g first k) := by
  refine ⟨fun f o c hc _ => owns_of_mem_given hc, fun f h o _ c hc => ?_⟩
  cases o with
  | node id => exact bounded_contributions hfirst (h (.node id)) _ c hc
  | production id =>
    obtain ⟨p, -, rfl⟩ := Option.map_eq_some_iff.1 (Option.mem_toList.1 hc)
    exact h (.production id)

theorem kept_start (g : Grammar) (hk : 1 ≤ k) : Kept g k (start g) :=
  ⟨start_fits g, start_within hk⟩

theorem ofGrammar_closed (hk : 1 ≤ k) (hfirst : first.Within fun _ => Bounded g k) :
    Closed g first k (ofGrammar g first k).value := by
  obtain ⟨-, hstart, hclosed⟩ := saturate_closed (handing_given hfirst) (kept_start g hk)
    g.covers_productions_nodes (pass_eq_visits g first k)
  refine ⟨fun p hp hends => ?_, fun p hp howns x hx => ?_, fun id kind hkind c hc howns x hx => ?_⟩
  · exact hstart (.production p.id) _ (eof_mem_start hp hends)
  · refine hclosed (.production p.id) (.node p.root, _) ?_ howns x hx
    rw [given_production hp]
    exact List.mem_singleton_self _
  · rw [← hkind.kindOf] at hc
    exact hclosed (.node id) c hc howns x hx

theorem mem_referenced {p : Production} (hp : p ∈ g.productions) :
    p.id ∈ referenced g ↔
      ∃ id name, g.HasKind id (.nonterminal name) ∧ g.production? name = some p := by
  constructor
  · intro hmem
    obtain ⟨n, hn, heq⟩ := List.mem_filterMap.1 hmem
    obtain ⟨i, hi, rfl⟩ := Array.mem_iff_getElem.1 (Array.mem_toList_iff.1 hn)
    split at heq
    · next name hkind =>
      obtain ⟨q, hq, hid⟩ := Option.map_eq_some_iff.1 heq
      obtain rfl := Grammar.eq_of_id_eq (Grammar.mem_of_production? hq) hp hid
      refine ⟨i, name, ?_, hq⟩
      rw [Grammar.HasKind, Array.getElem?_eq_getElem hi, Option.map_some, hkind]
    · cases heq
  · rintro ⟨id, name, hkind, hname⟩
    obtain ⟨n, hn, hnode⟩ := Option.map_eq_some_iff.1 hkind
    refine List.mem_filterMap.2 ⟨n, Array.mem_toList_iff.2 (Array.mem_of_getElem? hn), ?_⟩
    simp [hnode, hname]

theorem endsInput_iff {p : Production} (hp : p ∈ g.productions) :
    endsInput g p = true ↔ g.start? = some p.id ∨ g.Unreferenced p := by
  rw [endsInput, Bool.or_eq_true, decide_eq_true_eq, Bool.not_eq_true', List.contains_eq_mem,
    decide_eq_false_iff_not, mem_referenced hp]
  simp only [Grammar.Unreferenced, not_exists, not_and, ne_eq]

theorem take_mem_ofItems {outer : SequenceSet} (hfirst : First.Closed g k first) (hk : 1 ≤ k)
    {f w : List Nat} (hf : f.take k ∈ outer) {items : List Nat} (hw : g.DerivesAll items w) :
    (w ++ f).take k ∈ (ofItems first k outer items).1 := by
  obtain ⟨parts, rfl, hparts, rfl⟩ := hw
  induction parts with
  | nil => exact hf
  | cons p parts ih =>
    rw [List.flatMap_cons, List.append_assoc]
    exact take_append_mem_concat (hfirst.take_mem hk (hparts p List.mem_cons_self))
      (ih fun q hq => hparts q (List.mem_cons_of_mem _ hq))

theorem mem_ofItems (first : SetFamily) (k : Nat) (outer : SequenceSet)
    (before : List Nat) (i : Nat)
    (after : List Nat) :
    (.node i, (ofItems first k outer after).1) ∈
      (ofItems first k outer (before ++ i :: after)).2 := by
  induction before with
  | nil => exact List.mem_cons_self
  | cons j before ih => exact List.mem_cons_of_mem _ ih

theorem Closed.take_mem (h : Closed g first k f) (hfirst : First.Closed g k first) (hk : 1 ≤ k)
    {id : Nat} {w : List Nat} (hw : g.Follows id w) (hid : id < g.nodes.size) :
    w.take k ∈ f.node id := by
  have hloop {body : Nat} {ws : List (List Nat)} (hws : ∀ w ∈ ws, g.Derives body w)
      {outer : SequenceSet}
      {w : List Nat} (hw : w.take k ∈ outer) :
      (ws.flatten ++ w).take k ∈ ((first.node body).kleene k).concat outer k :=
    take_append_mem_concat (take_flatten_mem_kleene fun w hw => hfirst.take_mem hk (hws w hw)) hw
  have hroot {p : Production} (hp : p ∈ g.productions) (hid : p.root < g.nodes.size)
      (hends : endsInput g p = true) : [eofKind].take k ∈ f.node p.root := by
    rw [List.take_of_length_le hk]
    exact h.root p hp hid _ (h.ends p hp hends)
  induction hw with
  | start hp hstart => exact hroot hp hid ((endsInput_iff hp).2 (.inl hstart))
  | unreferenced hp hnone => exact hroot hp hid ((endsInput_iff hp).2 (.inr hnone))
  | scanned hkind hnested =>
    rw [List.take_nil]
    refine h.contribution _ _ hkind (.node _, .epsilon) ?_ hid [] (mem_epsilon.2 rfl)
    rw [contributions, hnested]
    exact List.mem_singleton_self _
  | item hkind hrest _ ih =>
    exact h.contribution _ _ hkind _ (mem_ofItems first k _ _ _ _) hid _
      (take_mem_ofItems hfirst hk (ih hkind.lt) hrest)
  | alternative hkind hi _ ih =>
    exact h.contribution _ _ hkind (.node _, _) (List.mem_map.2 ⟨_, hi, rfl⟩) hid _ (ih hkind.lt)
  | zeroOrMore hkind hws _ ih =>
    exact h.contribution _ _ hkind (.node _, _) (List.mem_singleton_self _) hid _
      (hloop hws (ih hkind.lt))
  | oneOrMore hkind hws _ ih =>
    exact h.contribution _ _ hkind (.node _, _) (List.mem_singleton_self _) hid _
      (hloop hws (ih hkind.lt))
  | zeroOrOne hkind _ ih =>
    exact h.contribution _ _ hkind (.node _, _) (List.mem_singleton_self _) hid _ (ih hkind.lt)
  | reference hkind hp _ ih =>
    have hmem := Grammar.mem_of_production? hp
    refine h.root _ hmem hid _ (h.contribution _ _ hkind (.production _, _) ?_
      (Grammar.id_lt_of_mem hmem)
      _ (ih hkind.lt))
    rw [contributions, hp]
    exact List.mem_singleton_self _

end Follow

theorem Grammar.take_mem_follow (g : Grammar) {id : Nat} {f : List Nat} (hf : g.Follows id f)
    (hid : id < g.nodes.size) :
    f.take g.computeSets.1.k ∈ g.computeSets.1.follow.node id := by
  obtain ⟨⟨-, hbounded⟩, hclosed⟩ := First.ofGrammar_closed g g.one_le_setBound
  exact (Follow.ofGrammar_closed g.one_le_setBound hbounded).take_mem hclosed
    g.one_le_setBound hf hid

end PredictiveParsing
