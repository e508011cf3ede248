import Mathlib.Data.List.Chain
import Mathlib.Data.List.Perm.Subperm
import Mathlib.Data.List.TakeWhile
import Mathlib.Logic.Relation
import PredictiveParsing.Proofs.Lexing
import PredictiveParsing.Proofs.PatternFaults

/-!
# What references lead to

A definition uses another if its pattern refers to it. Inlining follows the uses of a definition as
deep as they go. It ends with a pattern if they all end somewhere, and otherwise with a name that
stands for nothing or with a cycle. The definitions under way are all different, so that there is no
more to do after as many steps as there are definitions. Main statements: `inlines_iff_inlined` and
`tells_of_inlined_error`.
-/
namespace PredictiveParsing

open Relation

theorem Except.map_eq_error {ε α β : Type} {f : α → β} {x : Except ε α} {e : ε}
    (h : x.map f = .error e) : x = .error e := by
  cases x with
  | error e' => rw [Except.error.inj h]
  | ok a => cases h

namespace Pattern

section

variable {ε : Type} {f f' : String → Except ε Pattern}

mutual

theorem substitute_congr (p : Pattern) (h : ∀ name ∈ p.references, f name = f' name) :
    p.substitute f = p.substitute f' := by
  match p with
  | .literal text => rfl
  | .charClass cls => rfl
  | .seq items => rw [substitute, substitute, substituteAll_congr items h]
  | .alt items => rw [substitute, substitute, substituteAll_congr items h]
  | .star body => rw [substitute, substitute, substitute_congr body h]
  | .plus body => rw [substitute, substitute, substitute_congr body h]
  | .opt body => rw [substitute, substitute, substitute_congr body h]
  | .rep body min max => rw [substitute, substitute, substitute_congr body h]
  | .ref name => exact h name List.mem_cons_self

theorem substituteAll_congr (ps : List Pattern) (h : ∀ name ∈ referencesOf ps, f name = f' name) :
    substituteAll f ps = substituteAll f' ps := by
  match ps with
  | [] => rfl
  | p :: ps =>
    have hfirst := substitute_congr p fun name hname => h name (List.mem_append_left _ hname)
    have hrest := substituteAll_congr ps fun name hname => h name (List.mem_append_right _ hname)
    rw [substituteAll, substituteAll, hfirst, hrest]

end

mutual

theorem exists_of_substitute_error {e : ε} (p : Pattern) (h : p.substitute f = .error e) :
    ∃ name ∈ p.references, f name = .error e := by
  match p with
  | .literal text => cases h
  | .charClass cls => cases h
  | .seq items => exact exists_of_substituteAll_error items (Except.map_eq_error h)
  | .alt items => exact exists_of_substituteAll_error items (Except.map_eq_error h)
  | .star body => exact exists_of_substitute_error body (Except.map_eq_error h)
  | .plus body => exact exists_of_substitute_error body (Except.map_eq_error h)
  | .opt body => exact exists_of_substitute_error body (Except.map_eq_error h)
  | .rep body min max => exact exists_of_substitute_error body (Except.map_eq_error h)
  | .ref name => exact ⟨name, List.mem_cons_self, h⟩

theorem exists_of_substituteAll_error {e : ε} (ps : List Pattern)
    (h : substituteAll f ps = .error e) : ∃ name ∈ referencesOf ps, f name = .error e := by
  match ps with
  | [] => cases h
  | p :: ps =>
    rw [substituteAll] at h
    split at h
    · next hp =>
      obtain rfl := Except.error.inj h
      obtain ⟨name, hname, herror⟩ := exists_of_substitute_error p hp
      exact ⟨name, List.mem_append_left _ hname, herror⟩
    · obtain ⟨name, hname, herror⟩ := exists_of_substituteAll_error ps (Except.map_eq_error h)
      exact ⟨name, List.mem_append_right _ hname, herror⟩

end

end

end Pattern

namespace Grammar

open Pattern

/-- `g.Inlines p q`: the pattern `q` is `p` with, for every reference, the pattern of the definition
that it names, inlined in turn. -/
inductive Inlines (g : Grammar) : Pattern → Pattern → Prop
  | literal (text : String) : Inlines g (.literal text) (.literal text)
  | charClass (cls : CharClass) : Inlines g (.charClass cls) (.charClass cls)
  | seq {pairs : List (Pattern × Pattern)} (h : ∀ p ∈ pairs, Inlines g p.1 p.2) :
      Inlines g (.seq (pairs.map (·.1))) (.seq (pairs.map (·.2)))
  | alt {pairs : List (Pattern × Pattern)} (h : ∀ p ∈ pairs, Inlines g p.1 p.2) :
      Inlines g (.alt (pairs.map (·.1))) (.alt (pairs.map (·.2)))
  | star {p q : Pattern} (h : Inlines g p q) : Inlines g (.star p) (.star q)
  | plus {p q : Pattern} (h : Inlines g p q) : Inlines g (.plus p) (.plus q)
  | opt {p q : Pattern} (h : Inlines g p q) : Inlines g (.opt p) (.opt q)
  | rep {p q : Pattern} {min : Nat} {max : Option Nat} (h : Inlines g p q) :
      Inlines g (.rep p min max) (.rep q min max)
  | ref {name : String} {kind : Nat} {q : Pattern} (hname : g.referent? name = some kind)
      (h : Inlines g (g.patternOf kind) q) : Inlines g (.ref name) q

variable {g : Grammar} {p q : Pattern}

section

variable {ε : Type} {f : String → Except ε Pattern}

mutual

theorem inlines_of_substitute (hf : ∀ name q, f name = .ok q → g.Inlines (.ref name) q)
    (p q : Pattern) (h : p.substitute f = .ok q) : g.Inlines p q := by
  match p with
  | .literal text =>
    obtain rfl := Except.ok.inj h
    exact .literal text
  | .charClass cls =>
    obtain rfl := Except.ok.inj h
    exact .charClass cls
  | .seq items =>
    obtain ⟨qs, hqs, rfl⟩ := Except.map_eq_ok h
    obtain ⟨pairs, rfl, rfl, hpairs⟩ := exists_pairs_of_substituteAll hf items qs hqs
    exact .seq hpairs
  | .alt items =>
    obtain ⟨qs, hqs, rfl⟩ := Except.map_eq_ok h
    obtain ⟨pairs, rfl, rfl, hpairs⟩ := exists_pairs_of_substituteAll hf items qs hqs
    exact .alt hpairs
  | .star body =>
    obtain ⟨q, hq, rfl⟩ := Except.map_eq_ok h
    exact .star (inlines_of_substitute hf body q hq)
  | .plus body =>
    obtain ⟨q, hq, rfl⟩ := Except.map_eq_ok h
    exact .plus (inlines_of_substitute hf body q hq)
  | .opt body =>
    obtain ⟨q, hq, rfl⟩ := Except.map_eq_ok h
    exact .opt (inlines_of_substitute hf body q hq)
  | .rep body min max =>
    obtain ⟨q, hq, rfl⟩ := Except.map_eq_ok h
    exact .rep (inlines_of_substitute hf body q hq)
  | .ref name => exact hf name q h

theorem exists_pairs_of_substituteAll
    (hf : ∀ name q, f name = .ok q → g.Inlines (.ref name) q) (ps qs : List Pattern)
    (h : substituteAll f ps = .ok qs) :
    ∃ pairs : List (Pattern × Pattern), pairs.map (·.1) = ps ∧ pairs.map (·.2) = qs ∧
      ∀ p ∈ pairs, g.Inlines p.1 p.2 := by
  match ps with
  | [] =>
    obtain rfl := Except.ok.inj h
    exact ⟨[], rfl, rfl, by simp⟩
  | p :: ps =>
    rw [substituteAll] at h
    split at h
    · cases h
    · next q hq =>
      obtain ⟨qs, hqs, rfl⟩ := Except.map_eq_ok h
      obtain ⟨pairs, rfl, rfl, hpairs⟩ := exists_pairs_of_substituteAll hf ps qs hqs
      exact ⟨(p, q) :: pairs, rfl, rfl,
        List.forall_mem_cons.2 ⟨inlines_of_substitute hf p q hq, hpairs⟩⟩

end

end

theorem inlines_of_inlineName {fuel : Nat} {path : List Nat} {name : String}
    (h : g.inlineName fuel path name = .ok q) : g.Inlines (.ref name) q := by
  induction fuel generalizing path name q with
  | zero => cases h
  | succ fuel ih =>
    rw [inlineName] at h
    split at h
    · cases h
    · next kind hkind =>
      split at h
      · cases h
      · exact .ref hkind (inlines_of_substitute (fun _ _ => ih) _ q h)

theorem inlines_of_inlined {t : TokenDef} (h : g.inlined t = .ok q) : g.Inlines t.pattern q :=
  inlines_of_substitute (fun _ _ => inlines_of_inlineName) _ q h

theorem Inlines.references_eq_nil (h : g.Inlines p q) : q.references = [] := by
  induction h with
  | literal | charClass => rfl
  | seq h ih | alt h ih =>
    rw [references, referencesOf_eq, List.flatMap_eq_nil_iff]
    intro q hq
    obtain ⟨pair, hpair, rfl⟩ := List.mem_map.1 hq
    exact ih pair hpair
  | star _ ih | plus _ ih | opt _ ih | rep _ ih => exact ih
  | ref _ _ ih => exact ih

theorem map_snd_eq {α β : Type} {pairs pairs' : List (α × β)} {R : α → β → Prop}
    (h : ∀ p ∈ pairs, ∀ b, R p.1 b → p.2 = b) (h' : ∀ p ∈ pairs', R p.1 p.2)
    (heq : pairs'.map (·.1) = pairs.map (·.1)) : pairs.map (·.2) = pairs'.map (·.2) := by
  induction pairs generalizing pairs' with
  | nil => rw [List.map_eq_nil_iff.1 heq]
  | cons p pairs ih =>
    obtain ⟨p', pairs', rfl, hp, heq⟩ := List.map_eq_cons_iff.1 heq
    rw [List.forall_mem_cons] at h h'
    rw [List.map_cons, List.map_cons, ih h.2 h'.2 heq, h.1 _ (hp ▸ h'.1)]

theorem Inlines.unique {q' : Pattern} (h : g.Inlines p q) (h' : g.Inlines p q') : q = q' := by
  induction h generalizing q' with
  | literal | charClass =>
    cases h'
    rfl
  | @seq pairs _ ih =>
    generalize hp : pairs.map (·.1) = ps at h'
    cases h' with
    | seq h' => rw [map_snd_eq (fun p hp _ => ih p hp) h' hp.symm]
  | @alt pairs _ ih =>
    generalize hp : pairs.map (·.1) = ps at h'
    cases h' with
    | alt h' => rw [map_snd_eq (fun p hp _ => ih p hp) h' hp.symm]
  | star _ ih | plus _ ih | opt _ ih | rep _ ih =>
    cases h' with
    | _ h' => rw [ih h']
  | ref hname _ ih =>
    cases h' with
    | ref hname' h' =>
      obtain rfl := Option.some.inj (hname.symm.trans hname')
      exact ih h'

def Uses (g : Grammar) (k k' : Nat) : Prop :=
  ∃ name ∈ (g.patternOf k).references, g.referent? name = some k'

def Dangling (g : Grammar) (k : Nat) : Prop :=
  ∃ k', ReflTransGen g.Uses k k' ∧ ∃ name ∈ (g.patternOf k').references,
    g.tokenKind? name = none ∨ g.tokenKind? name = some eofKind

def Looping (g : Grammar) (k : Nat) : Prop :=
  ∃ k', ReflTransGen g.Uses k k' ∧ TransGen g.Uses k' k'

theorem referent?_eq_none_iff {name : String} :
    g.referent? name = none ↔ g.tokenKind? name = none ∨ g.tokenKind? name = some eofKind := by
  rw [referent?]
  cases hname : g.tokenKind? name with
  | none => simp
  | some kind => by_cases heof : kind = eofKind <;> simp [heof]

inductive Grounded (g : Grammar) : Nat → Prop
  | intro {k : Nat} (hdefined : ∀ name ∈ (g.patternOf k).references, g.referent? name ≠ none)
      (h : ∀ k', g.Uses k k' → Grounded g k') : Grounded g k

theorem Grounded.of_reaches {k k' : Nat} (h : g.Grounded k) (hreaches : ReflTransGen g.Uses k k') :
    g.Grounded k' := by
  induction hreaches with
  | refl => exact h
  | tail _ huses ih =>
    cases ih with
    | intro _ ih => exact ih _ huses

theorem Grounded.not_dangling {k : Nat} (h : g.Grounded k) : ¬ g.Dangling k := by
  rintro ⟨k', hreaches, name, hname, hnone⟩
  cases h.of_reaches hreaches with
  | intro hdefined _ => exact hdefined name hname (referent?_eq_none_iff.2 hnone)

theorem Grounded.not_returns {k : Nat} (h : g.Grounded k) : ¬ TransGen g.Uses k k := by
  induction h with
  | @intro k _ _ ih =>
    intro hcycle
    obtain ⟨k', huses, hback⟩ := TransGen.head'_iff.1 hcycle
    exact ih k' huses (TransGen.tail' hback huses)

theorem Grounded.not_looping {k : Nat} (h : g.Grounded k) : ¬ g.Looping k := by
  rintro ⟨k', hreaches, hcycle⟩
  exact (h.of_reaches hreaches).not_returns hcycle

theorem grounded_of_references {k : Nat}
    (h : ∀ name ∈ (g.patternOf k).references,
      ∃ kind, g.referent? name = some kind ∧ g.Grounded kind) : g.Grounded k := by
  refine ⟨fun name hname hnone => ?_, ?_⟩
  · obtain ⟨kind, hkind, -⟩ := h name hname
    rw [hnone] at hkind
    cases hkind
  · rintro k' ⟨name, hname, hk'⟩
    obtain ⟨kind, hkind, hgrounded⟩ := h name hname
    obtain rfl := Option.some.inj (hk'.symm.trans hkind)
    exact hgrounded

theorem Inlines.grounded (h : g.Inlines p q) :
    ∀ name ∈ p.references, ∃ kind, g.referent? name = some kind ∧ g.Grounded kind := by
  induction h with
  | literal | charClass => simp [references]
  | seq _ ih | alt _ ih =>
    intro name hname
    rw [references, referencesOf_eq] at hname
    obtain ⟨item, hitem, hname⟩ := List.mem_flatMap.1 hname
    obtain ⟨pair, hpair, rfl⟩ := List.mem_map.1 hitem
    exact ih pair hpair name hname
  | star _ ih | plus _ ih | opt _ ih | rep _ ih => exact ih
  | ref hkind _ ih =>
    intro name hname
    obtain rfl := List.mem_singleton.1 hname
    exact ⟨_, hkind, grounded_of_references ih⟩

theorem patternOf_kind {t : TokenDef} (ht : t ∈ g.tokens) : g.patternOf t.kind = t.pattern := by
  obtain ⟨k, hk⟩ := Array.mem_iff_getElem?.1 ht
  rw [patternOf, kind_eq hk, hk]
  rfl

theorem lt_of_mem_references {k : Nat} {name : String} (h : name ∈ (g.patternOf k).references) :
    k < g.tokens.size := by
  by_contra hle
  rw [patternOf, Array.getElem?_eq_none (Nat.le_of_not_lt hle)] at h
  exact absurd h List.not_mem_nil

/-- The definitions of `path` are under way, each used by the one before it, and the last of them
refers to `name`. -/
structure Underway (g : Grammar) (root : Nat) (path : List Nat) (name : String) : Prop where
  head : path.head? = some root
  chain : path.IsChain g.Uses
  nodup : path.Nodup
  lt : ∀ k ∈ path, k < g.tokens.size
  mentioned : ∃ k, path.getLast? = some k ∧ name ∈ (g.patternOf k).references

variable {root fuel : Nat} {path : List Nat} {name : String}

theorem underway_start (h : name ∈ (g.patternOf root).references) :
    g.Underway root [root] name :=
  ⟨rfl, .singleton _, List.nodup_singleton _,
    List.forall_mem_singleton.2 (lt_of_mem_references h), root, rfl, h⟩

theorem Underway.step (h : g.Underway root path name) {kind : Nat}
    (hkind : g.referent? name = some kind) (hnew : kind ∉ path) {name' : String}
    (hname' : name' ∈ (g.patternOf kind).references) : g.Underway root (path ++ [kind]) name' := by
  obtain ⟨k, hlast, hname⟩ := h.mentioned
  refine ⟨?_, ?_, ?_, ?_, kind, List.getLast?_concat, hname'⟩
  · rw [List.head?_append, h.head]
    rfl
  · refine h.chain.append (.singleton _) fun k' hk' k'' hk'' => ?_
    obtain rfl := Option.some.inj (hlast.symm.trans hk')
    obtain rfl := Option.some.inj hk''
    exact ⟨name, hname, hkind⟩
  · refine List.nodup_append.2 ⟨h.nodup, List.nodup_singleton _, ?_⟩
    rintro k' hk' _ hk'' rfl
    exact hnew (List.mem_singleton.1 hk'' ▸ hk')
  · simpa [or_imp, forall_and] using ⟨h.lt, lt_of_mem_references hname'⟩

theorem Underway.length_le (h : g.Underway root path name) : path.length ≤ g.tokens.size := by
  have hsub : path.Subperm (List.range g.tokens.size) :=
    List.subperm_of_subset h.nodup fun k hk => List.mem_range.2 (h.lt k hk)
  simpa using hsub.length_le

theorem Underway.reaches (h : g.Underway root path name) {k : Nat} (hk : k ∈ path) :
    ReflTransGen g.Uses root k := by
  refine h.chain.induction (ReflTransGen g.Uses root) _ (fun _ _ huses hk => hk.tail huses)
    (fun hne => ?_) k hk
  rw [(List.head_eq_iff_head?_eq_some hne).2 h.head]

/-- There is enough fuel for all definitions that are not under way yet, so more of it makes no
difference. -/
theorem Underway.inlineName_add (h : g.Underway root path name)
    (hfuel : g.tokens.size < path.length + fuel) (n : Nat) :
    g.inlineName (fuel + n) path name = g.inlineName fuel path name := by
  induction fuel generalizing path name with
  | zero =>
    have := h.length_le
    omega
  | succ fuel ih =>
    rw [Nat.add_right_comm, inlineName, inlineName]
    split
    · rfl
    · next kind hkind =>
      split
      · rfl
      · next hnew =>
        rw [List.contains_iff_mem] at hnew
        refine substitute_congr _ fun name' hname' => ih (h.step hkind hnew hname') ?_
        rw [List.length_append, List.length_singleton]
        omega

theorem inlined_of_le {t : TokenDef} (ht : t ∈ g.tokens) (hfuel : g.tokens.size ≤ fuel) :
    t.pattern.substitute (g.inlineName fuel [t.kind]) = g.inlined t := by
  refine substitute_congr _ fun name hname => ?_
  rw [← patternOf_kind ht] at hname
  obtain ⟨n, rfl⟩ := Nat.exists_eq_add_of_le hfuel
  exact (underway_start hname).inlineName_add (by simp) n

def Tells (g : Grammar) (root : Nat) : ReferenceError → Prop
  | .undefined name => g.referent? name = none ∧
      ∃ k, ReflTransGen g.Uses root k ∧ name ∈ (g.patternOf k).references
  | .cycle names => ∃ first rest name, ReflTransGen g.Uses root first ∧
      (first :: rest).IsChain g.Uses ∧
      (∃ last, (first :: rest).getLast? = some last ∧ name ∈ (g.patternOf last).references) ∧
      g.referent? name = some first ∧ names = (first :: rest).map g.tokenName ++ [name]

theorem Underway.tells_cycle (h : g.Underway root path name) {kind : Nat}
    (hkind : g.referent? name = some kind) (hmem : kind ∈ path) :
    g.Tells root (.cycle ((path.dropWhile (· ≠ kind)).map g.tokenName ++ [name])) := by
  obtain ⟨k, hlast, hname⟩ := h.mentioned
  have hsuffix : path.dropWhile (· ≠ kind) <:+ path := List.dropWhile_suffix _
  have hhead := List.head?_dropWhile_not (· ≠ kind) path
  cases hsegment : path.dropWhile (· ≠ kind) with
  | nil => simpa using List.dropWhile_eq_nil_iff.1 hsegment kind hmem
  | cons first rest =>
    rw [hsegment] at hsuffix hhead
    obtain rfl : first = kind := by simpa using hhead
    obtain ⟨before, rfl⟩ := hsuffix
    rw [List.getLast?_append_cons] at hlast
    have hchain := h.chain.right_of_append
    exact ⟨first, rest, name, h.reaches hmem, hchain, ⟨k, hlast, hname⟩, hkind, rfl⟩

theorem Underway.tells (h : g.Underway root path name)
    (hfuel : g.tokens.size < path.length + fuel) {e : ReferenceError}
    (herror : g.inlineName fuel path name = .error e) : g.Tells root e := by
  induction fuel generalizing path name with
  | zero =>
    have := h.length_le
    omega
  | succ fuel ih =>
    rw [inlineName] at herror
    split at herror
    · next hnone =>
      obtain rfl := Except.error.inj herror
      obtain ⟨k, hlast, hname⟩ := h.mentioned
      exact ⟨hnone, k, h.reaches (List.mem_of_getLast? hlast), hname⟩
    · next kind hkind =>
      split at herror
      · next hmem =>
        obtain rfl := Except.error.inj herror
        exact h.tells_cycle hkind (List.contains_iff_mem.1 hmem)
      · next hnew =>
        rw [List.contains_iff_mem] at hnew
        obtain ⟨name', hname', herror⟩ := exists_of_substitute_error _ herror
        refine ih (h.step hkind hnew hname') ?_ herror
        rw [List.length_append, List.length_singleton]
        omega

theorem tells_of_inlined_error {t : TokenDef} (ht : t ∈ g.tokens) {e : ReferenceError}
    (h : g.inlined t = .error e) : g.Tells t.kind e := by
  obtain ⟨name, hname, herror⟩ := exists_of_substitute_error _ h
  rw [← patternOf_kind ht] at hname
  exact (underway_start hname).tells (by simp) herror

theorem Tells.dangling (h : g.Tells root (.undefined name)) : g.Dangling root := by
  obtain ⟨hnone, k, hreaches, hname⟩ := h
  exact ⟨k, hreaches, name, hname, referent?_eq_none_iff.1 hnone⟩

theorem Tells.looping {names : List String} (h : g.Tells root (.cycle names)) :
    g.Looping root := by
  obtain ⟨first, rest, name, hreaches, hchain, ⟨last, hlast, hname⟩, hkind, -⟩ := h
  refine ⟨first, hreaches, TransGen.tail' (b := last) ?_ ⟨name, hname, hkind⟩⟩
  refine List.relationReflTransGen_of_exists_isChain_cons rest hchain ?_
  exact (List.getLast_eq_iff_getLast?_eq_some _).2 hlast

theorem grounded_of_inlines {t : TokenDef} (ht : t ∈ g.tokens) (h : g.Inlines t.pattern q) :
    g.Grounded t.kind := by
  apply grounded_of_references
  rw [patternOf_kind ht]
  exact h.grounded

theorem inlines_iff_inlined {t : TokenDef} (ht : t ∈ g.tokens) :
    g.Inlines t.pattern q ↔ g.inlined t = .ok q := by
  refine ⟨fun h => ?_, inlines_of_inlined⟩
  have hgrounded := grounded_of_inlines ht h
  cases hresult : g.inlined t with
  | ok q' => rw [h.unique (inlines_of_inlined hresult)]
  | error e =>
    have htells := tells_of_inlined_error ht hresult
    cases e with
    | undefined name => exact absurd htells.dangling hgrounded.not_dangling
    | cycle names => exact absurd htells.looping hgrounded.not_looping

end Grammar
end PredictiveParsing
