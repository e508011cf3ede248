import Mathlib.Computability.Language
import PredictiveParsing.Pattern.Basic
import PredictiveParsing.Text.Case

/-!
# What patterns match

A character stands for a set of characters if it is one of them or, where case is ignored, if it is
the one-character upper or lower case form of one of them. A pattern matches texts by its form; a
reference matches what the pattern it names matches, so matching is inductive. Automata read code
points, of which some are not characters, so the same is said of words of code points. Given what
references spell, the words of a pattern are a regular language. Main statement: `mem_language_iff`.
-/
namespace PredictiveParsing

open scoped Computability

def IsCaseForm (c d : Char) : Prop := (c.toNat, d.toNat) ∈ caseVariants

def StandsFor (ignoreCase : Bool) (has : Char → Prop) (d : Char) : Prop :=
  has d ∨ ignoreCase = true ∧ ∃ c, has c ∧ IsCaseForm c d

def ClassItem.Has : ClassItem → Char → Prop
  | char c, d => d = c
  | range lo hi, d => lo ≤ d ∧ d ≤ hi

def CharClass.Has (cls : CharClass) (d : Char) : Prop :=
  if cls.negated then ¬ ∃ i ∈ cls.items, i.Has d else ∃ i ∈ cls.items, i.Has d

namespace Pattern

inductive Matches (refs : String → Option Pattern) (ignoreCase : Bool) : Pattern → List Char → Prop
  | literal {text : String} {w : List Char}
      (h : List.Forall₂ (fun c d => StandsFor ignoreCase (· = c) d) text.toList w) :
      Matches refs ignoreCase (.literal text) w
  | charClass {cls : CharClass} {d : Char} (h : StandsFor ignoreCase cls.Has d) :
      Matches refs ignoreCase (.charClass cls) [d]
  | seq {parts : List (Pattern × List Char)} (h : ∀ p ∈ parts, Matches refs ignoreCase p.1 p.2) :
      Matches refs ignoreCase (.seq (parts.map (·.1))) (parts.flatMap (·.2))
  | alt {items : List Pattern} {p : Pattern} {w : List Char} (hp : p ∈ items)
      (h : Matches refs ignoreCase p w) : Matches refs ignoreCase (.alt items) w
  | star {body : Pattern} {ws : List (List Char)} (h : ∀ w ∈ ws, Matches refs ignoreCase body w) :
      Matches refs ignoreCase (.star body) ws.flatten
  | plus {body : Pattern} {ws : List (List Char)} (hmin : 1 ≤ ws.length)
      (h : ∀ w ∈ ws, Matches refs ignoreCase body w) :
        Matches refs ignoreCase (.plus body) ws.flatten
  | opt {body : Pattern} {ws : List (List Char)} (hmax : ws.length ≤ 1)
      (h : ∀ w ∈ ws, Matches refs ignoreCase body w) :
        Matches refs ignoreCase (.opt body) ws.flatten
  | rep {body : Pattern} {min : Nat} {max : Option Nat} {ws : List (List Char)}
      (hmin : min ≤ ws.length)
      (hmax : ∀ m ∈ max, ws.length ≤ m) (h : ∀ w ∈ ws, Matches refs ignoreCase body w) :
      Matches refs ignoreCase (.rep body min max) ws.flatten
  | ref {name : String} {p : Pattern} {w : List Char} (hp : refs name = some p)
      (h : Matches refs ignoreCase p w) : Matches refs ignoreCase (.ref name) w

end Pattern

def StandsForCode (ignoreCase : Bool) (has : Nat → Prop) (c : Nat) : Prop :=
  has c ∨ ignoreCase = true ∧ ∃ a, has a ∧ (a, c) ∈ caseVariants

def ClassItem.HasCode : ClassItem → Nat → Prop
  | char a, c => c = a.toNat
  | range lo hi, c => lo.toNat ≤ c ∧ c ≤ hi.toNat

/-- A negated class has the other code points, those included that are not characters. -/
def CharClass.HasCode (cls : CharClass) (c : Nat) : Prop :=
  c ≤ CharSet.maxCodePoint ∧
    if cls.negated then ¬ ∃ i ∈ cls.items, i.HasCode c else ∃ i ∈ cls.items, i.HasCode c

namespace Pattern

inductive Spells (refs : String → Option Pattern) (ignoreCase : Bool) : Pattern → List Nat → Prop
  | literal {text : String} {w : List Nat}
      (h : List.Forall₂ (fun a c => StandsForCode ignoreCase (· = a.toNat) c) text.toList w) :
      Spells refs ignoreCase (.literal text) w
  | charClass {cls : CharClass} {c : Nat} (h : StandsForCode ignoreCase cls.HasCode c) :
      Spells refs ignoreCase (.charClass cls) [c]
  | seq {parts : List (Pattern × List Nat)} (h : ∀ p ∈ parts, Spells refs ignoreCase p.1 p.2) :
      Spells refs ignoreCase (.seq (parts.map (·.1))) (parts.flatMap (·.2))
  | alt {items : List Pattern} {p : Pattern} {w : List Nat} (hp : p ∈ items)
      (h : Spells refs ignoreCase p w) : Spells refs ignoreCase (.alt items) w
  | star {body : Pattern} {ws : List (List Nat)} (h : ∀ w ∈ ws, Spells refs ignoreCase body w) :
      Spells refs ignoreCase (.star body) ws.flatten
  | plus {body : Pattern} {ws : List (List Nat)} (hmin : 1 ≤ ws.length)
      (h : ∀ w ∈ ws, Spells refs ignoreCase body w) :
        Spells refs ignoreCase (.plus body) ws.flatten
  | opt {body : Pattern} {ws : List (List Nat)} (hmax : ws.length ≤ 1)
      (h : ∀ w ∈ ws, Spells refs ignoreCase body w) :
        Spells refs ignoreCase (.opt body) ws.flatten
  | rep {body : Pattern} {min : Nat} {max : Option Nat} {ws : List (List Nat)}
      (hmin : min ≤ ws.length)
      (hmax : ∀ m ∈ max, ws.length ≤ m) (h : ∀ w ∈ ws, Spells refs ignoreCase body w) :
      Spells refs ignoreCase (.rep body min max) ws.flatten
  | ref {name : String} {p : Pattern} {w : List Nat} (hp : refs name = some p)
      (h : Spells refs ignoreCase p w) : Spells refs ignoreCase (.ref name) w

def upTo (l : Language Nat) : (n : Nat) → Language Nat
  | 0 => 1
  | n + 1 => l * upTo l n + 1

def repeatedLanguage (l : Language Nat) (min : Nat) : Option Nat → Language Nat
  | none => l ^ min * l∗
  | some max => l ^ min * upTo l (max - min)

def letterLanguage (ignoreCase : Bool) (has : Nat → Prop) : Language Nat :=
  {w | ∃ c, w = [c] ∧ StandsForCode ignoreCase has c}

def literalLanguage (ignoreCase : Bool) : List Char → Language Nat
  | [] => 1
  | c :: cs => letterLanguage ignoreCase (· = c.toNat) * literalLanguage ignoreCase cs

mutual

def language (ignoreCase : Bool) (env : String → Language Nat) : Pattern → Language Nat
  | .literal text => literalLanguage ignoreCase text.toList
  | .charClass cls => letterLanguage ignoreCase cls.HasCode
  | .seq items => sequenceLanguage ignoreCase env items
  | .alt items => choiceLanguage ignoreCase env items
  | .star body => repeatedLanguage (body.language ignoreCase env) 0 none
  | .plus body => repeatedLanguage (body.language ignoreCase env) 1 none
  | .opt body => repeatedLanguage (body.language ignoreCase env) 0 (some 1)
  | .rep body min max => repeatedLanguage (body.language ignoreCase env) min max
  | .ref name => env name

def sequenceLanguage (ignoreCase : Bool) (env : String → Language Nat) :
    List Pattern → Language Nat
  | [] => 1
  | p :: ps => p.language ignoreCase env * sequenceLanguage ignoreCase env ps

def choiceLanguage (ignoreCase : Bool) (env : String → Language Nat) : List Pattern → Language Nat
  | [] => 0
  | p :: ps => p.language ignoreCase env + choiceLanguage ignoreCase env ps

end

theorem mem_letterLanguage {ignoreCase : Bool} {has : Nat → Prop} {w : List Nat} :
    w ∈ letterLanguage ignoreCase has ↔ ∃ c, w = [c] ∧ StandsForCode ignoreCase has c := Iff.rfl

theorem mem_literalLanguage {ignoreCase : Bool} {cs : List Char} {w : List Nat} :
    w ∈ literalLanguage ignoreCase cs ↔
      List.Forall₂ (fun a c => StandsForCode ignoreCase (· = a.toNat) c) cs w := by
  induction cs generalizing w with
  | nil => rw [literalLanguage, Language.mem_one, List.forall₂_nil_left_iff]
  | cons c cs ih =>
    rw [literalLanguage, Language.mem_mul, List.forall₂_cons_left_iff]
    constructor
    · rintro ⟨_, ⟨d, rfl, hd⟩, v, hv, rfl⟩
      exact ⟨d, v, hd, ih.1 hv, rfl⟩
    · rintro ⟨d, v, hd, hv, rfl⟩
      exact ⟨[d], ⟨d, rfl, hd⟩, v, ih.2 hv, rfl⟩

theorem mem_upTo {l : Language Nat} {n : Nat} {w : List Nat} :
    w ∈ upTo l n ↔ ∃ ws : List (List Nat), ws.length ≤ n ∧ (∀ v ∈ ws, v ∈ l) ∧ ws.flatten = w := by
  induction n generalizing w with
  | zero =>
    rw [upTo, Language.mem_one]
    constructor
    · rintro rfl
      exact ⟨[], Nat.le_refl 0, by simp, rfl⟩
    · rintro ⟨ws, hlen, -, rfl⟩
      rw [List.eq_nil_of_length_eq_zero (Nat.le_zero.1 hlen)]
      rfl
  | succ n ih =>
    rw [upTo, Language.mem_add, Language.mem_mul]
    constructor
    · rintro (⟨u, hu, v, hv, rfl⟩ | rfl)
      · obtain ⟨ws, hlen, hws, rfl⟩ := ih.1 hv
        exact ⟨u :: ws, Nat.succ_le_succ hlen, List.forall_mem_cons.2 ⟨hu, hws⟩, rfl⟩
      · exact ⟨[], Nat.zero_le _, by simp, rfl⟩
    · rintro ⟨ws, hlen, hws, rfl⟩
      cases ws with
      | nil => exact .inr rfl
      | cons u ws =>
        obtain ⟨hu, hws⟩ := List.forall_mem_cons.1 hws
        exact .inl ⟨u, hu, ws.flatten, ih.2 ⟨ws, Nat.le_of_succ_le_succ hlen, hws, rfl⟩, rfl⟩

theorem mem_repeatedLanguage {l : Language Nat} {min : Nat} {max : Option Nat}
    (hmax : ∀ m ∈ max, min ≤ m)
    {w : List Nat} : w ∈ repeatedLanguage l min max ↔
      ∃ ws : List (List Nat), min ≤ ws.length ∧ (∀ m ∈ max, ws.length ≤ m) ∧ (∀ v ∈ ws, v ∈ l) ∧
        ws.flatten = w := by
  have hsplit {ws : List (List Nat)} (hlen : min ≤ ws.length) (hws : ∀ v ∈ ws, v ∈ l) :
      (ws.take min).flatten ∈ l ^ min := by
    refine Language.mem_pow.2 ⟨ws.take min, rfl, ?_, fun v hv => hws v (List.mem_of_mem_take hv)⟩
    rw [List.length_take, Nat.min_eq_left hlen]
  have hjoin (ws : List (List Nat)) :
      (ws.take min).flatten ++ (ws.drop min).flatten = ws.flatten := by
    rw [← List.flatten_append, List.take_append_drop]
  cases max with
  | none =>
    rw [repeatedLanguage, Language.mem_mul]
    constructor
    · rintro ⟨u, hu, v, hv, rfl⟩
      obtain ⟨us, rfl, hlen, hus⟩ := Language.mem_pow.1 hu
      obtain ⟨vs, rfl, hvs⟩ := Language.mem_kstar.1 hv
      refine ⟨us ++ vs, by simp [hlen], by simp, fun x hx => ?_, List.flatten_append⟩
      exact (List.mem_append.1 hx).elim (hus x) (hvs x)
    · rintro ⟨ws, hlen, -, hws, rfl⟩
      exact ⟨_, hsplit hlen hws, _, Language.mem_kstar.2
        ⟨ws.drop min, rfl, fun v hv => hws v (List.mem_of_mem_drop hv)⟩, hjoin ws⟩
  | some m =>
    have hle : min ≤ m := hmax m rfl
    rw [repeatedLanguage, Language.mem_mul]
    constructor
    · rintro ⟨u, hu, v, hv, rfl⟩
      obtain ⟨us, rfl, hlen, hus⟩ := Language.mem_pow.1 hu
      obtain ⟨vs, hvlen, hvs, rfl⟩ := mem_upTo.1 hv
      refine ⟨us ++ vs, by simp [hlen], fun x hx => ?_, fun x hx => ?_, List.flatten_append⟩
      · obtain rfl := Option.some.inj hx
        rw [List.length_append]
        omega
      · exact (List.mem_append.1 hx).elim (hus x) (hvs x)
    · rintro ⟨ws, hlen, hws', hws, rfl⟩
      have hlen' := hws' m rfl
      refine ⟨_, hsplit hlen hws, _, mem_upTo.2
        ⟨ws.drop min, ?_, fun v hv => hws v (List.mem_of_mem_drop hv), rfl⟩, hjoin ws⟩
      rw [List.length_drop]
      omega

theorem le_of_boundsFault? {min : Nat} {max : Option Nat} (h : boundsFault? min max = none) :
    ∀ m ∈ max, min ≤ m := by
  rintro m rfl
  simp only [boundsFault?] at h
  split at h
  · cases h
  · split at h
    · cases h
    · omega

theorem firstFault?_cons {p : Pattern} {ps : List Pattern} (h : firstFault? (p :: ps) = none) :
    p.fault? = none ∧ firstFault? ps = none := by
  rw [firstFault?] at h
  split at h
  · cases h
  · next hp => exact ⟨hp, h⟩

section

variable (refs : String → Option Pattern) (ignoreCase : Bool)

def refLanguage (name : String) : Language Nat := {w | Spells refs ignoreCase (.ref name) w}

mutual

theorem mem_language_iff (p : Pattern) (h : p.fault? = none) (w : List Nat) :
    w ∈ p.language ignoreCase (refLanguage refs ignoreCase) ↔ Spells refs ignoreCase p w := by
  match p with
  | .literal text =>
    rw [language, mem_literalLanguage]
    exact ⟨.literal, fun hw => by cases hw; assumption⟩
  | .charClass cls =>
    rw [language]
    constructor
    · rintro ⟨d, rfl, hd⟩
      exact .charClass hd
    · intro hw
      cases hw with
      | charClass hd => exact ⟨_, rfl, hd⟩
  | .seq items =>
    rw [language, mem_sequenceLanguage items h]
    constructor
    · rintro ⟨parts, rfl, hparts, rfl⟩
      exact .seq hparts
    · intro hw
      cases hw with
      | seq hparts => exact ⟨_, rfl, hparts, rfl⟩
  | .alt items =>
    rw [language, mem_choiceLanguage items h]
    constructor
    · rintro ⟨p, hp, hw⟩
      exact .alt hp hw
    · intro hw
      cases hw with
      | alt hp hw => exact ⟨_, hp, hw⟩
  | .star body =>
    have hbody := mem_language_iff body h
    rw [language, mem_repeatedLanguage (by simp)]
    simp only [hbody]
    constructor
    · rintro ⟨ws, -, -, hws, rfl⟩
      exact .star hws
    · intro hw
      cases hw with
      | star hws => exact ⟨_, Nat.zero_le _, by simp, hws, rfl⟩
  | .plus body =>
    have hbody := mem_language_iff body h
    rw [language, mem_repeatedLanguage (by simp)]
    simp only [hbody]
    constructor
    · rintro ⟨ws, hmin, -, hws, rfl⟩
      exact .plus hmin hws
    · intro hw
      cases hw with
      | plus hmin hws => exact ⟨_, hmin, by simp, hws, rfl⟩
  | .opt body =>
    have hbody := mem_language_iff body h
    rw [language, mem_repeatedLanguage (by simp)]
    simp only [hbody]
    constructor
    · rintro ⟨ws, -, hmax, hws, rfl⟩
      exact .opt (hmax 1 rfl) hws
    · intro hw
      cases hw with
      | opt hmax hws => exact ⟨_, Nat.zero_le _, fun m hm => Option.some.inj hm ▸ hmax, hws, rfl⟩
  | .rep body min max =>
    rw [fault?] at h
    split at h
    · cases h
    · next hbounds =>
      have hbody := mem_language_iff body h
      rw [language, mem_repeatedLanguage (le_of_boundsFault? hbounds)]
      simp only [hbody]
      constructor
      · rintro ⟨ws, hmin, hmax, hws, rfl⟩
        exact .rep hmin hmax hws
      · intro hw
        cases hw with
        | rep hmin hmax hws => exact ⟨_, hmin, hmax, hws, rfl⟩
  | .ref name => rfl

theorem mem_sequenceLanguage (ps : List Pattern) (h : firstFault? ps = none) (w : List Nat) :
    w ∈ sequenceLanguage ignoreCase (refLanguage refs ignoreCase) ps ↔
      ∃ parts : List (Pattern × List Nat), parts.map (·.1) = ps ∧
        (∀ p ∈ parts, Spells refs ignoreCase p.1 p.2) ∧ parts.flatMap (·.2) = w := by
  match ps with
  | [] =>
    rw [sequenceLanguage, Language.mem_one]
    constructor
    · rintro rfl
      exact ⟨[], rfl, by simp, rfl⟩
    · rintro ⟨parts, hparts, -, rfl⟩
      rw [List.map_eq_nil_iff.1 hparts]
      rfl
  | p :: ps =>
    obtain ⟨hp, hps⟩ := firstFault?_cons h
    have hfirst := mem_language_iff p hp
    have hrest := mem_sequenceLanguage ps hps
    rw [sequenceLanguage, Language.mem_mul]
    constructor
    · rintro ⟨u, hu, v, hv, rfl⟩
      obtain ⟨parts, rfl, hparts, rfl⟩ := (hrest v).1 hv
      exact ⟨(p, u) :: parts, rfl, List.forall_mem_cons.2 ⟨(hfirst u).1 hu, hparts⟩, rfl⟩
    · rintro ⟨parts, hmap, hparts, rfl⟩
      obtain ⟨⟨p', u⟩, parts, rfl, rfl, rfl⟩ := List.map_eq_cons_iff.1 hmap
      obtain ⟨hu, hparts⟩ := List.forall_mem_cons.1 hparts
      exact ⟨u, (hfirst u).2 hu, _, (hrest _).2 ⟨parts, rfl, hparts, rfl⟩, rfl⟩

theorem mem_choiceLanguage (ps : List Pattern) (h : firstFault? ps = none) (w : List Nat) :
    w ∈ choiceLanguage ignoreCase (refLanguage refs ignoreCase) ps ↔
      ∃ p ∈ ps, Spells refs ignoreCase p w := by
  match ps with
  | [] => simp [choiceLanguage]
  | p :: ps =>
    obtain ⟨hp, hps⟩ := firstFault?_cons h
    rw [choiceLanguage, Language.mem_add, mem_language_iff p hp, mem_choiceLanguage ps hps]
    simp

end

end

end Pattern
end PredictiveParsing
