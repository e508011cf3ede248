import Mathlib.Data.List.Flatten
import PredictiveParsing.Proofs.LeftRecursion
import PredictiveParsing.Proofs.Nullability
import PredictiveParsing.Proofs.Trees

/-!
# Sentential forms and left recursion

Rewriting a node, where any node on the way may be left as it is, gives its sentential forms. A
production is left-recursive if one of the forms of its root starts with a reference to it. Such a
form comes about along steps from a production to one that is referred to leftmost, after nothing
but nodes that derive the empty text; these are the steps that the search follows. Main statement:
`leftRecursive_iff`.
-/
namespace PredictiveParsing.Grammar

open Relation LeftRecursion

section

variable (g : Grammar)

def RefersTo (id : Nat) (p : Production) : Prop :=
  ∃ name, g.HasKind id (.nonterminal name) ∧ g.production? name = some p

/-- `g.Yields id form`: the node `id` can be rewritten to the nodes of `form`. The rules are those
of derivation, but that a node may also stay as it is. -/
inductive Yields : Nat → List Nat → Prop
  | unit (id : Nat) : Yields id [id]
  | sequence {id : Nat} {parts : List (Nat × List Nat)}
      (h : g.HasKind id (.sequence (parts.map (·.1)))) (hparts : ∀ p ∈ parts, Yields p.1 p.2) :
      Yields id (parts.flatMap (·.2))
  | choice {id i : Nat} {items form : List Nat} (h : g.HasKind id (.choice items)) (hi : i ∈ items)
      (hform : Yields i form) : Yields id form
  | zeroOrMore {id body : Nat} {forms : List (List Nat)} (h : g.HasKind id (.zeroOrMore body))
      (hforms : ∀ form ∈ forms, Yields body form) : Yields id forms.flatten
  | oneOrMore {id body : Nat} {form : List Nat} {forms : List (List Nat)}
      (h : g.HasKind id (.oneOrMore body)) (hform : Yields body form)
      (hforms : ∀ form ∈ forms, Yields body form) : Yields id (form ++ forms.flatten)
  | skipped {id body : Nat} (h : g.HasKind id (.zeroOrOne body)) : Yields id []
  | taken {id body : Nat} {form : List Nat} (h : g.HasKind id (.zeroOrOne body))
      (hform : Yields body form) : Yields id form
  | nonterminal {id : Nat} {p : Production} {form : List Nat} (h : g.RefersTo id p)
      (hform : Yields p.root form) : Yields id form
  | action {id : Nat} {code : String} (h : g.HasKind id (.action code)) : Yields id []
  | lookahead {id : Nat} {la : StatedLookahead} (h : g.HasKind id (.lookahead la)) : Yields id []

def LeftRecursive (p : Production) : Prop :=
  ∃ id rest, g.Yields p.root (id :: rest) ∧ g.RefersTo id p

/-- The node can begin with a reference to the production, with nothing but what derives the empty
text before it. -/
inductive Leftmost : Nat → Production → Prop
  | reference {id : Nat} {p : Production} (h : g.RefersTo id p) : Leftmost id p
  | item {id i : Nat} {before after : List Nat} {p : Production}
      (h : g.HasKind id (.sequence (before ++ i :: after)))
      (hbefore : ∀ j ∈ before, g.Derives j []) (hp : Leftmost i p) : Leftmost id p
  | alternative {id i : Nat} {items : List Nat} {p : Production} (h : g.HasKind id (.choice items))
      (hi : i ∈ items) (hp : Leftmost i p) : Leftmost id p
  | zeroOrMore {id body : Nat} {p : Production} (h : g.HasKind id (.zeroOrMore body))
      (hp : Leftmost body p) : Leftmost id p
  | oneOrMore {id body : Nat} {p : Production} (h : g.HasKind id (.oneOrMore body))
      (hp : Leftmost body p) : Leftmost id p
  | zeroOrOne {id body : Nat} {p : Production} (h : g.HasKind id (.zeroOrOne body))
      (hp : Leftmost body p) : Leftmost id p

end

variable {g : Grammar} {id i q : Nat} {form rest items : List Nat} {p : Production}

theorem RefersTo.mem (h : g.RefersTo id p) : p ∈ g.productions := by
  obtain ⟨name, -, hp⟩ := h
  exact mem_of_production? hp

theorem Leftmost.mem (h : g.Leftmost id p) : p ∈ g.productions := by
  induction h with
  | reference h => exact h.mem
  | item _ _ _ ih | alternative _ _ _ ih | zeroOrMore _ _ ih | oneOrMore _ _ ih
  | zeroOrOne _ _ ih => exact ih

theorem Yields.derives_nil (h : g.Yields id form) (hempty : form = []) : g.Derives id [] := by
  have hnone (body : Nat) : ∀ w ∈ ([] : List (List Nat)), g.Derives body w := by simp
  induction h with
  | unit => cases hempty
  | @sequence id parts hkind _ ih =>
    apply DerivesAll.derives _ hkind
    apply derivesAll_nil
    intro i hi
    obtain ⟨part, hpart, rfl⟩ := List.mem_map.1 hi
    exact ih part hpart (List.flatMap_eq_nil_iff.1 hempty part hpart)
  | choice hkind hi _ ih => exact .choice hkind hi (ih hempty)
  | zeroOrMore hkind => exact .zeroOrMore hkind (hnone _)
  | oneOrMore hkind _ _ ih =>
    exact .oneOrMore hkind (ih (List.append_eq_nil_iff.1 hempty).1) (hnone _)
  | skipped hkind => exact .skipped hkind
  | taken hkind => exact .skipped hkind
  | nonterminal h _ ih =>
    obtain ⟨name, hkind, hp⟩ := h
    exact .nonterminal hkind hp (ih hempty)
  | action hkind => exact .action hkind
  | lookahead hkind => exact .lookahead hkind

theorem Derives.yields_nil {w : List Nat} (h : g.Derives id w) (hempty : w = []) :
    g.Yields id [] := by
  have hnone (body : Nat) : ∀ form ∈ ([] : List (List Nat)), g.Yields body form := by simp
  induction h with
  | @sequence id parts hkind _ ih =>
    have hnil := List.flatMap_eq_nil_iff.1 hempty
    have hyields := Yields.sequence hkind fun p hp => (hnil p hp).symm ▸ ih p hp (hnil p hp)
    rwa [hempty] at hyields
  | choice hkind hi _ ih => exact .choice hkind hi (ih hempty)
  | zeroOrMore hkind => exact .zeroOrMore hkind (hnone _)
  | oneOrMore hkind _ _ ih =>
    have hbody := ih (List.append_eq_nil_iff.1 hempty).1
    exact .oneOrMore hkind hbody (hnone _)
  | skipped hkind => exact .skipped hkind
  | taken hkind => exact .skipped hkind
  | nonterminal hkind hp _ ih => exact .nonterminal ⟨_, hkind, hp⟩ (ih hempty)
  | token => cases hempty
  | action hkind => exact .action hkind
  | lookahead hkind => exact .lookahead hkind

theorem exists_first_part {parts : List (Nat × List Nat)}
    (h : parts.flatMap (·.2) = id :: rest) :
    ∃ before part after rest', parts = before ++ part :: after ∧ (∀ p ∈ before, p.2 = []) ∧
      part.2 = id :: rest' := by
  rw [List.flatMap_def, List.flatten_eq_cons_iff] at h
  obtain ⟨empties, rest', others, hsplit, hempties, -⟩ := h
  obtain ⟨before, later, rfl, rfl, hlater⟩ := List.map_eq_append_iff.1 hsplit
  obtain ⟨part, after, rfl, hpart, -⟩ := List.map_eq_cons_iff.1 hlater
  refine ⟨before, part, after, rest', rfl, ?_, hpart⟩
  intro p hp
  exact hempties p.2 (List.mem_map_of_mem hp)

theorem exists_first_form {forms : List (List Nat)} (h : forms.flatten = id :: rest) :
    ∃ rest', id :: rest' ∈ forms := by
  obtain ⟨empties, rest', others, rfl, -⟩ := List.flatten_eq_cons_iff.1 h
  exact ⟨rest', by simp⟩

theorem Yields.exists_leftmost (h : g.Yields id form) {first : Nat} (hform : form = first :: rest)
    (hfirst : g.RefersTo first p)
    (hbegins : ∀ {p r : Production}, p ∈ g.productions → g.Leftmost p.root r → g.Begins p.id r.id) :
    ∃ r, g.Leftmost id r ∧ ReflTransGen g.Begins r.id p.id := by
  induction h generalizing rest with
  | unit id =>
    obtain ⟨rfl, -⟩ := List.cons.inj hform
    exact ⟨p, .reference hfirst, .refl⟩
  | @sequence id parts hkind hparts ih =>
    obtain ⟨before, part, after, rest', rfl, hbefore, hpart⟩ := exists_first_part hform
    obtain ⟨r, hr, hsteps⟩ := ih part (by simp) hpart
    rw [List.map_append, List.map_cons] at hkind
    refine ⟨r, .item hkind ?_ hr, hsteps⟩
    intro j hj
    obtain ⟨skipped, hskipped, rfl⟩ := List.mem_map.1 hj
    exact (hparts skipped (by simp [hskipped])).derives_nil (hbefore skipped hskipped)
  | choice hkind hi _ ih =>
    obtain ⟨r, hr, hsteps⟩ := ih hform
    exact ⟨r, .alternative hkind hi hr, hsteps⟩
  | zeroOrMore hkind _ ih =>
    obtain ⟨rest', hmem⟩ := exists_first_form hform
    obtain ⟨r, hr, hsteps⟩ := ih _ hmem rfl
    exact ⟨r, .zeroOrMore hkind hr, hsteps⟩
  | @oneOrMore id body form forms hkind _ _ ih ihs =>
    cases form with
    | cons first' form =>
      obtain ⟨rfl, -⟩ := List.cons.inj hform
      obtain ⟨r, hr, hsteps⟩ := ih rfl
      exact ⟨r, .oneOrMore hkind hr, hsteps⟩
    | nil =>
      obtain ⟨rest', hmem⟩ := exists_first_form hform
      obtain ⟨r, hr, hsteps⟩ := ihs _ hmem rfl
      exact ⟨r, .oneOrMore hkind hr, hsteps⟩
  | taken hkind _ ih =>
    obtain ⟨r, hr, hsteps⟩ := ih hform
    exact ⟨r, .zeroOrOne hkind hr, hsteps⟩
  | @nonterminal id q form h _ ih =>
    obtain ⟨r, hr, hsteps⟩ := ih hform
    exact ⟨q, .reference h, .head (hbegins h.mem hr) hsteps⟩
  | skipped | action | lookahead => cases hform

/-- The reference that a node begins with, and that what it is rewritten to can stand for it. -/
theorem Leftmost.exists_reference (h : g.Leftmost id p) :
    ∃ first, g.RefersTo first p ∧
      ∀ form, g.Yields first form → ∃ rest, g.Yields id (form ++ rest) := by
  induction h with
  | @reference id p h => exact ⟨id, h, fun form hform => ⟨[], by simpa using hform⟩⟩
  | @item id i before after p hkind hbefore _ ih =>
    obtain ⟨first, hfirst, hyields⟩ := ih
    refine ⟨first, hfirst, fun form hform => ?_⟩
    obtain ⟨rest, hi⟩ := hyields form hform
    let parts := before.map (fun j => (j, [])) ++ (i, form ++ rest) :: after.map fun j => (j, [j])
    have hsequence : g.HasKind id (.sequence (parts.map (·.1))) := by
      simpa [parts, Function.comp_def] using hkind
    have hparts : ∀ p ∈ parts, g.Yields p.1 p.2 := by
      intro p hp
      rcases List.mem_append.1 hp with hp | hp
      · obtain ⟨j, hj, rfl⟩ := List.mem_map.1 hp
        exact (hbefore j hj).yields_nil rfl
      · rcases List.mem_cons.1 hp with rfl | hp
        · exact hi
        · obtain ⟨j, -, rfl⟩ := List.mem_map.1 hp
          exact .unit j
    have hnone : before.flatMap (fun _ => ([] : List Nat)) = [] := by simp
    refine ⟨rest ++ after, ?_⟩
    simpa [parts, List.flatMap_map, hnone] using Yields.sequence hsequence hparts
  | alternative hkind hi _ ih =>
    obtain ⟨first, hfirst, hyields⟩ := ih
    refine ⟨first, hfirst, fun form hform => ?_⟩
    obtain ⟨rest, hi'⟩ := hyields form hform
    exact ⟨rest, .choice hkind hi hi'⟩
  | @zeroOrMore id body p hkind _ ih =>
    obtain ⟨first, hfirst, hyields⟩ := ih
    refine ⟨first, hfirst, fun form hform => ?_⟩
    obtain ⟨rest, hbody⟩ := hyields form hform
    have hforms : ∀ f ∈ [form ++ rest], g.Yields body f := by simpa using hbody
    exact ⟨rest, by simpa using Yields.zeroOrMore hkind hforms⟩
  | @oneOrMore id body p hkind _ ih =>
    obtain ⟨first, hfirst, hyields⟩ := ih
    refine ⟨first, hfirst, fun form hform => ?_⟩
    obtain ⟨rest, hbody⟩ := hyields form hform
    have hforms : ∀ f ∈ ([] : List (List Nat)), g.Yields body f := by simp
    exact ⟨rest, by simpa using Yields.oneOrMore hkind hbody hforms⟩
  | zeroOrOne hkind _ ih =>
    obtain ⟨first, hfirst, hyields⟩ := ih
    refine ⟨first, hfirst, fun form hform => ?_⟩
    obtain ⟨rest, hbody⟩ := hyields form hform
    exact ⟨rest, .taken hkind hbody⟩

theorem mem_leading {nullable : Nullable} :
    i ∈ leading nullable items ↔
      ∃ before after, items = before ++ i :: after ∧ ∀ j ∈ before, nullable.node j = true := by
  induction items with
  | nil => simp [leading]
  | cons j items ih =>
    rw [leading]
    split
    · next hempty =>
      rw [List.mem_cons, ih]
      constructor
      · rintro (rfl | ⟨before, after, rfl, hbefore⟩)
        · exact ⟨[], items, rfl, by simp⟩
        · exact ⟨j :: before, after, rfl, by simpa [hempty] using hbefore⟩
      · rintro ⟨before, after, hsplit, hbefore⟩
        cases before with
        | nil => exact .inl (List.cons.inj hsplit).1.symm
        | cons j' before =>
          refine .inr ⟨before, after, (List.cons.inj hsplit).2, fun k hk => ?_⟩
          exact hbefore k (List.mem_cons_of_mem _ hk)
    · next hfull =>
      rw [List.mem_singleton]
      constructor
      · rintro rfl
        exact ⟨[], items, rfl, by simp⟩
      · rintro ⟨before, after, hsplit, hbefore⟩
        cases before with
        | nil => exact (List.cons.inj hsplit).1.symm
        | cons j' before =>
          obtain ⟨rfl, -⟩ := List.cons.inj hsplit
          exact absurd (hbefore j List.mem_cons_self) hfull

theorem leftmost_of_mem {fuel : Nat} (h : q ∈ leftmost g g.computeSets.1.nullable fuel id) :
    ∃ p, g.Leftmost id p ∧ p.id = q := by
  induction fuel generalizing id with
  | zero => cases h
  | succ fuel ih =>
    rw [leftmost] at h
    split at h
    · next items hkind =>
      obtain ⟨i, hi, hq⟩ := List.mem_flatMap.1 h
      obtain ⟨p, hp, hid⟩ := ih hq
      obtain ⟨before, after, rfl, hbefore⟩ := mem_leading.1 hi
      have hderives : ∀ j ∈ before, g.Derives j [] := by
        intro j hj
        exact (g.nullable_iff j).1 (hbefore j hj)
      exact ⟨p, .item (hasKind_of_kindOf hkind (by simp)) hderives hp, hid⟩
    · next items hkind =>
      obtain ⟨i, hi, hq⟩ := List.mem_flatMap.1 h
      obtain ⟨p, hp, hid⟩ := ih hq
      exact ⟨p, .alternative (hasKind_of_kindOf hkind (by simp)) hi hp, hid⟩
    · next body hkind =>
      obtain ⟨p, hp, hid⟩ := ih h
      exact ⟨p, .zeroOrMore (hasKind_of_kindOf hkind (by simp)) hp, hid⟩
    · next body hkind =>
      obtain ⟨p, hp, hid⟩ := ih h
      exact ⟨p, .oneOrMore (hasKind_of_kindOf hkind (by simp)) hp, hid⟩
    · next body hkind =>
      obtain ⟨p, hp, hid⟩ := ih h
      exact ⟨p, .zeroOrOne (hasKind_of_kindOf hkind (by simp)) hp, hid⟩
    · next name hkind =>
      simp only [Option.mem_toList, Option.map_eq_some_iff] at h
      obtain ⟨p, hp, hid⟩ := h
      exact ⟨p, .reference ⟨name, hasKind_of_kindOf hkind (by simp), hp⟩, hid⟩
    · cases h

/-- The parts of a node have lower numbers, so that a node's number bounds the depth of its tree. -/
theorem Leftmost.mem_leftmost (hplanted : g.Planted) (h : g.Leftmost id p) {fuel : Nat}
    (hfuel : id < fuel) : p.id ∈ leftmost g g.computeSets.1.nullable fuel id := by
  induction h generalizing fuel with
  | reference h =>
    obtain ⟨name, hkind, hp⟩ := h
    cases fuel with
    | zero => cases hfuel
    | succ fuel => simp [leftmost, hkind.kindOf, hp]
  | @item id i before after p hkind hbefore _ ih =>
    have hi := hplanted.part_lt hkind (i := i) (by simp [Node.Kind.children])
    cases fuel with
    | zero => cases hfuel
    | succ fuel =>
      simp only [leftmost, hkind.kindOf]
      apply List.mem_flatMap.2
      refine ⟨i, mem_leading.2 ⟨before, after, rfl, fun j hj => ?_⟩, ih (by omega)⟩
      exact (g.nullable_iff j).2 (hbefore j hj)
  | @alternative id i items p hkind hi _ ih =>
    have hlt := hplanted.part_lt hkind hi
    cases fuel with
    | zero => cases hfuel
    | succ fuel =>
      simp only [leftmost, hkind.kindOf]
      exact List.mem_flatMap.2 ⟨i, hi, ih (by omega)⟩
  | @zeroOrMore id body p hkind _ ih | @oneOrMore id body p hkind _ ih
  | @zeroOrOne id body p hkind _ ih =>
    have hlt := hplanted.part_lt hkind (i := body) (by simp [Node.Kind.children])
    cases fuel with
    | zero => cases hfuel
    | succ fuel =>
      simp only [leftmost, hkind.kindOf]
      exact ih (by omega)

theorem begins_iff (hplanted : g.Planted) (hp : p ∈ g.productions) :
    g.Begins p.id q ↔ ∃ r, g.Leftmost p.root r ∧ r.id = q := by
  simp only [Begins, Leads, edges, getElem?_id hp, Ascending.mem_ofList]
  constructor
  · exact leftmost_of_mem
  · rintro ⟨r, hr, rfl⟩
    exact hr.mem_leftmost hplanted (Nat.lt_succ_of_lt (hplanted.root_lt hp))

theorem exists_of_begins {a b : Nat} (h : g.Begins a b) : ∃ p ∈ g.productions, p.id = a := by
  have hlt := lt_of_leads h
  have hget := Array.getElem?_eq_getElem hlt
  exact ⟨_, Array.mem_of_getElem? hget, g.productions_numbered a _ hget⟩

theorem exists_form_of_steps (hplanted : g.Planted) {a b : Nat} (h : TransGen g.Begins a b) :
    ∀ p ∈ g.productions, p.id = a → ∃ first rest r,
      g.Yields p.root (first :: rest) ∧ g.RefersTo first r ∧ r.id = b := by
  induction h using TransGen.head_induction_on with
  | single hstep =>
    rintro p hp rfl
    obtain ⟨r, hr, rfl⟩ := (begins_iff hplanted hp).1 hstep
    obtain ⟨first, hfirst, hyields⟩ := hr.exists_reference
    obtain ⟨rest, hform⟩ := hyields [first] (.unit first)
    exact ⟨first, rest, r, hform, hfirst, rfl⟩
  | head hstep _ ih =>
    rintro p hp rfl
    obtain ⟨next, hnext, rfl⟩ := (begins_iff hplanted hp).1 hstep
    obtain ⟨first, rest, r, hform, hfirst, hid⟩ := ih next hnext.mem rfl
    obtain ⟨reference, hreference, hyields⟩ := hnext.exists_reference
    obtain ⟨rest', hform'⟩ := hyields _ (.nonterminal hreference hform)
    exact ⟨first, rest ++ rest', r, hform', hfirst, hid⟩

theorem leftRecursive_iff (hplanted : g.Planted) (hp : p ∈ g.productions) :
    g.LeftRecursive p ↔ TransGen g.Begins p.id p.id := by
  have hbegins {p r : Production} (hp : p ∈ g.productions) (hr : g.Leftmost p.root r) :
      g.Begins p.id r.id := (begins_iff hplanted hp).2 ⟨r, hr, rfl⟩
  constructor
  · rintro ⟨first, rest, hform, hfirst⟩
    obtain ⟨r, hr, hsteps⟩ := hform.exists_leftmost rfl hfirst hbegins
    exact TransGen.head' (hbegins hp hr) hsteps
  · intro h
    obtain ⟨first, rest, r, hform, hfirst, hid⟩ := exists_form_of_steps hplanted h p hp rfl
    obtain rfl := eq_of_id_eq hfirst.mem hp hid
    exact ⟨first, rest, hform, hfirst⟩

end PredictiveParsing.Grammar
