import PredictiveParsing.Proofs.LetterSets

/-!
# Texts are words of code points

A text is a word of code points in which every code point is a character. A pattern matches a text
if and only if it spells that word, as only characters have case forms and a word of characters is
cut into words of characters. Main statement: `matches_iff_spells`.
-/
namespace PredictiveParsing

theorem standsFor_iff {ignoreCase : Bool} {has : Char → Prop} {hasCode : Nat → Prop}
    (h : ∀ c : Char, has c ↔ hasCode c.toNat) {d : Char} :
    StandsFor ignoreCase has d ↔ StandsForCode ignoreCase hasCode d.toNat := by
  apply or_congr (h d)
  apply and_congr_right'
  constructor
  · rintro ⟨c, hc, hform⟩
    exact ⟨c.toNat, (h c).1 hc, hform⟩
  · rintro ⟨a, ha, hform⟩
    obtain ⟨c, rfl⟩ := exists_char_of_mem_caseVariants hform
    exact ⟨c, (h c).2 ha, hform⟩

theorem ClassItem.has_iff {i : ClassItem} {d : Char} : i.Has d ↔ i.HasCode d.toNat := by
  cases i with
  | char c => exact Char.toNat_inj.symm
  | range lo hi => exact Iff.rfl

theorem CharClass.has_iff {cls : CharClass} {d : Char} : cls.Has d ↔ cls.HasCode d.toNat := by
  rw [Has, HasCode, and_iff_right (toNat_le_maxCodePoint d)]
  simp only [ClassItem.has_iff]

theorem standsFor_char_iff {ignoreCase : Bool} {c d : Char} :
    StandsFor ignoreCase (· = c) d ↔ StandsForCode ignoreCase (· = c.toNat) d.toNat := by
  apply standsFor_iff
  exact fun _ => Char.toNat_inj.symm

theorem standsFor_class_iff {ignoreCase : Bool} {cls : CharClass} {d : Char} :
    StandsFor ignoreCase cls.Has d ↔ StandsForCode ignoreCase cls.HasCode d.toNat :=
  standsFor_iff fun _ => CharClass.has_iff

theorem exists_parts_of_map_eq {α β γ : Type} {f : α → β} {w : List α} {parts : List (γ × List β)}
    (h : w.map f = parts.flatMap (·.2)) :
    ∃ qs : List (γ × List α), qs.map (fun q => (q.1, q.2.map f)) = parts ∧
      qs.flatMap (·.2) = w := by
  induction parts generalizing w with
  | nil => exact ⟨[], rfl, (List.map_eq_nil_iff.1 h).symm⟩
  | cons part parts ih =>
    rw [List.flatMap_cons] at h
    obtain ⟨u, rest, rfl, hu, hrest⟩ := List.map_eq_append_iff.1 h
    obtain ⟨qs, rfl, rfl⟩ := ih hrest
    exact ⟨(part.1, u) :: qs, by rw [List.map_cons, hu], rfl⟩

namespace Pattern

variable {refs : String → Option Pattern} {ignoreCase : Bool} {p : Pattern}

theorem Matches.spells {w : List Char} (h : Matches refs ignoreCase p w) :
    Spells refs ignoreCase p (w.map Char.toNat) := by
  have hword {body : Pattern} {ws : List (List Char)}
      (h : ∀ w ∈ ws, Spells refs ignoreCase body (w.map Char.toNat)) :
      ∀ v ∈ ws.map (List.map Char.toNat), Spells refs ignoreCase body v := by
    simpa using h
  induction h with
  | literal h =>
    apply Spells.literal
    rw [List.forall₂_map_right_iff]
    exact h.imp fun _ _ => standsFor_char_iff.1
  | charClass h => exact .charClass (standsFor_class_iff.1 h)
  | @seq parts h ih =>
    have hparts := Spells.seq
      (List.forall_mem_map.2 ih : ∀ q ∈ parts.map fun p => (p.1, p.2.map Char.toNat), _)
    simpa [List.flatMap_def, List.map_flatten, Function.comp_def] using hparts
  | alt hp _ ih => exact .alt hp ih
  | star h ih =>
    rw [List.map_flatten]
    exact .star (hword ih)
  | plus hmin h ih =>
    rw [List.map_flatten]
    exact .plus (by rwa [List.length_map]) (hword ih)
  | opt hmax h ih =>
    rw [List.map_flatten]
    exact .opt (by rwa [List.length_map]) (hword ih)
  | rep hmin hmax h ih =>
    rw [List.map_flatten]
    exact .rep (by rwa [List.length_map]) (by rwa [List.length_map]) (hword ih)
  | ref hp _ ih => exact .ref hp ih

theorem Spells.matches {v : List Nat} (h : Spells refs ignoreCase p v) {w : List Char}
    (hw : w.map Char.toNat = v) : Matches refs ignoreCase p w := by
  have htexts {body : Pattern} {vs : List (List Nat)} {w : List Char}
      (h : ∀ v ∈ vs, ∀ {w : List Char}, w.map Char.toNat = v → Matches refs ignoreCase body w)
      (hw : w.map Char.toNat = vs.flatten) :
      ∃ ws : List (List Char), ws.flatten = w ∧ ws.length = vs.length ∧
        ∀ w ∈ ws, Matches refs ignoreCase body w := by
    have hparts : w.map Char.toNat = (vs.map (Prod.mk body)).flatMap (·.2) := by
      simpa [List.flatMap_def] using hw
    obtain ⟨qs, hqs, rfl⟩ := exists_parts_of_map_eq hparts
    obtain rfl : qs.map (fun q => q.2.map Char.toNat) = vs := by
      simpa [Function.comp_def] using congrArg (List.map (·.2)) hqs
    refine ⟨qs.map (·.2), rfl, by simp, ?_⟩
    simp only [List.forall_mem_map] at h ⊢
    exact fun q hq => h q hq rfl
  induction h generalizing w with
  | literal h =>
    subst hw
    apply Matches.literal
    rw [List.forall₂_map_right_iff] at h
    exact h.imp fun _ _ => standsFor_char_iff.2
  | charClass h =>
    obtain ⟨d, rfl, rfl⟩ := List.map_eq_singleton_iff.1 hw
    exact .charClass (standsFor_class_iff.2 h)
  | @seq parts h ih =>
    obtain ⟨qs, rfl, rfl⟩ := exists_parts_of_map_eq hw
    simp only [List.forall_mem_map] at ih
    have htext := Matches.seq fun q hq => ih q hq rfl
    rwa [List.map_map]
  | alt hp _ ih => exact .alt hp (ih hw)
  | star h ih =>
    obtain ⟨ws, rfl, -, hws⟩ := htexts ih hw
    exact .star hws
  | plus hmin h ih =>
    obtain ⟨ws, rfl, hlength, hws⟩ := htexts ih hw
    exact .plus (by rwa [hlength]) hws
  | opt hmax h ih =>
    obtain ⟨ws, rfl, hlength, hws⟩ := htexts ih hw
    exact .opt (by rwa [hlength]) hws
  | rep hmin hmax h ih =>
    obtain ⟨ws, rfl, hlength, hws⟩ := htexts ih hw
    exact .rep (by rwa [hlength]) (by rwa [hlength]) hws
  | ref hp _ ih => exact .ref hp (ih hw)

theorem matches_iff_spells {w : List Char} :
    Matches refs ignoreCase p w ↔ Spells refs ignoreCase p (w.map Char.toNat) :=
  ⟨Matches.spells, fun h => h.matches rfl⟩

end Pattern
end PredictiveParsing
