import Mathlib.Data.List.Induction
import Mathlib.Data.List.Nodup
import PredictiveParsing.Symbols

/-!
# Name tables and the lists they are made from

A table is looked at as what is left of a list of names when those that were there before are
dropped. A name that has an index keeps it. Main statements: `index?_of_getElem?` and
`names_ofNames`.
-/
namespace PredictiveParsing.Symbols

variable {t : Symbols} {name other : String} {names : List String} {i : Nat}

theorem index?_eq_none : t.index? name = none ↔ name ∉ t.names := List.idxOf?_eq_none_iff

theorem getElem?_of_index? (h : t.index? name = some i) : t.names[i]? = some name := by
  obtain ⟨hlt, rfl, -⟩ := List.idxOf?_eq_some_iff.1 h
  exact List.getElem?_eq_getElem hlt

theorem lt_of_index? (h : t.index? name = some i) : i < t.size :=
  (List.getElem?_eq_some_iff.1 (getElem?_of_index? h)).1

theorem index?_of_getElem? (hnodup : t.names.Nodup) (h : t.names[i]? = some name) :
    t.index? name = some i := by
  obtain ⟨hlt, rfl⟩ := List.getElem?_eq_some_iff.1 h
  refine List.idxOf?_eq_some_iff.2 ⟨hlt, rfl, fun j hj heq => ?_⟩
  exact absurd ((List.Nodup.getElem_inj_iff hnodup).1 heq) (Nat.ne_of_lt hj)

theorem names_add (t : Symbols) (name : String) :
    (t.add name).1.names = if name ∈ t.names then t.names else t.names ++ [name] := by
  rw [add]
  split
  · next i h => rw [if_pos (List.mem_of_getElem? (getElem?_of_index? h))]
  · next h => rw [if_neg (index?_eq_none.1 h), push]

theorem nodup_push (h : t.names.Nodup) (hname : t.index? name = none) :
    (t.push name).names.Nodup := by
  have hnew := index?_eq_none.1 hname
  exact List.nodup_append.2 ⟨h, List.nodup_singleton name, fun a ha b hb heq =>
    hnew (List.mem_singleton.1 hb ▸ heq ▸ ha)⟩

theorem index?_add (h : t.index? name = some i) : (t.add other).1.index? name = some i := by
  obtain ⟨hlt, hname, hfirst⟩ := List.idxOf?_eq_some_iff.1 h
  have hprefix : t.names <+: (t.add other).1.names := by
    rw [names_add]
    split
    · exact List.prefix_refl _
    · exact List.prefix_append _ _
  obtain ⟨rest, hrest⟩ := hprefix
  refine List.idxOf?_eq_some_iff.2 ?_
  simp only [← hrest, List.length_append]
  refine ⟨by omega, ?_, fun j hj => ?_⟩
  · rwa [List.getElem_append_left hlt]
  · rw [List.getElem_append_left (by omega)]
    exact hfirst j hj

def ofNames (names : List String) : Symbols :=
  names.foldl (fun t name => (t.add name).1) empty

theorem ofNames_concat (names : List String) (name : String) :
    ofNames (names ++ [name]) = ((ofNames names).add name).1 := by
  rw [ofNames, List.foldl_concat, ofNames]

theorem mem_ofNames : name ∈ (ofNames names).names ↔ name ∈ names := by
  induction names using List.reverseRecOn with
  | nil => exact Iff.rfl
  | append_singleton names other ih =>
    rw [ofNames_concat, names_add]
    split
    · next h =>
      rw [List.mem_append, List.mem_singleton, ih]
      exact ⟨.inl, fun hname => hname.elim id fun heq => heq ▸ ih.1 (heq ▸ h)⟩
    · rw [List.mem_append, List.mem_append, ih]

theorem size_ofNames_le (names : List String) : (ofNames names).size ≤ names.length := by
  induction names using List.reverseRecOn with
  | nil => exact Nat.le_refl _
  | append_singleton names other ih =>
    rw [size] at ih ⊢
    rw [ofNames_concat, names_add, List.length_append]
    split
    · exact Nat.le_add_right_of_le ih
    · rw [List.length_append]
      exact Nat.add_le_add_right ih _

theorem names_ofNames (h : names.Nodup) : (ofNames names).names = names := by
  induction names using List.reverseRecOn with
  | nil => rfl
  | append_singleton names name ih =>
    obtain ⟨hnames, -, hnew⟩ := List.nodup_append.1 h
    have hnew : name ∉ names := fun hmem => hnew name hmem name (List.mem_singleton_self _) rfl
    rw [ofNames_concat, names_add, ih hnames, if_neg hnew]

end PredictiveParsing.Symbols
