import Mathlib.Logic.Function.Basic
import PredictiveParsing.Text.Quoted

/-!
# Quoted text can be read back

Different strings are quoted differently. What stands for a character is the character itself, or a
letter or a number after a backslash, and each of these shows where it ends. Main statement:
`string_injective`.
-/
namespace PredictiveParsing.Quoted

variable {c d : Char} {x y : List Char}

theorem digitChar_inj : ∀ m < 16, ∀ n < 16, m.digitChar = n.digitChar → m = n := by decide

theorem toDigits_injective {m n : Nat} (h : Nat.toDigits 16 m = Nat.toDigits 16 n) : m = n := by
  induction m using Nat.strongRecOn generalizing n with
  | ind m ih =>
    rw [Nat.toDigits_eq_if (by decide), Nat.toDigits_eq_if (n := n) (by decide)] at h
    split at h <;> split at h
    · next hm hn => exact digitChar_inj m hm n hn (List.head_eq_of_cons_eq h)
    · exact absurd (congrArg List.length h) (by simp)
    · exact absurd (congrArg List.length h) (by simp)
    · next hm hn =>
      obtain ⟨hinit, hlast⟩ := List.append_inj' h rfl
      have hdiv : m / 16 = n / 16 := ih (m / 16) (by omega) hinit
      have hmod : m % 16 = n % 16 :=
        digitChar_inj _ (Nat.mod_lt _ (by decide)) _ (Nat.mod_lt _ (by decide))
          (List.head_eq_of_cons_eq hlast)
      omega

theorem brace_not_mem_toDigits (n : Nat) : '\x7d' ∉ Nat.toDigits 16 n := by
  have hdigit (m : Nat) : '\x7d' ≠ m.digitChar := (Nat.digitChar_ne '\x7d' (by decide)).symm
  induction n using Nat.strongRecOn with
  | ind n ih =>
    rw [Nat.toDigits_eq_if (by decide)]
    split
    · simp [hdigit]
    · simp [hdigit, ih (n / 16) (by omega)]

theorem append_cons_inj {a b : List Char} (ha : c ∉ a) (hb : c ∉ b)
    (h : a ++ c :: x = b ++ c :: y) : a = b ∧ x = y := by
  induction a generalizing b with
  | nil =>
    cases b with
    | nil => simpa using h
    | cons e b => exact absurd (List.head_eq_of_cons_eq h) (List.ne_of_not_mem_cons hb)
  | cons d a ih =>
    cases b with
    | nil => exact absurd (List.head_eq_of_cons_eq h).symm (List.ne_of_not_mem_cons ha)
    | cons e b =>
      obtain ⟨rfl, rfl⟩ := ih (List.not_mem_of_not_mem_cons ha) (List.not_mem_of_not_mem_cons hb)
        (List.tail_eq_of_cons_eq h)
      exact ⟨by rw [List.head_eq_of_cons_eq h], rfl⟩

def named (l : Char) : Char :=
  if l = '0' then '\x00'
  else if l = 't' then '\t'
  else if l = 'r' then '\r'
  else if l = 'n' then '\n'
  else l

theorem escape_cases (c : Char) :
    escape '"' c = [c] ∧ c ≠ '\\' ∨
      (∃ l, escape '"' c = ['\\', l] ∧ l ≠ 'u' ∧ named l = c) ∨
      escape '"' c = '\\' :: 'u' :: '\x7b' :: (Nat.toDigits 16 c.toNat ++ ['\x7d']) := by
  unfold escape
  split
  · next h => exact .inr (.inl ⟨'0', rfl, by decide, h.symm⟩)
  split
  · next h => exact .inr (.inl ⟨'t', rfl, by decide, h.symm⟩)
  split
  · next h => exact .inr (.inl ⟨'r', rfl, by decide, h.symm⟩)
  split
  · next h => exact .inr (.inl ⟨'n', rfl, by decide, h.symm⟩)
  split
  · next h =>
    refine .inr (.inl ⟨c, rfl, ?_⟩)
    rcases h with rfl | rfl
    · decide
    · decide
  split
  · exact .inr (.inr rfl)
  · next h _ => exact .inl ⟨rfl, fun hc => h (.inl hc)⟩

theorem escape_append_inj (h : escape '"' c ++ x = escape '"' d ++ y) : c = d ∧ x = y := by
  rcases escape_cases c with ⟨hc, hplain⟩ | ⟨l, hc, hletter, rfl⟩ | hc <;>
    rcases escape_cases d with ⟨hd, hplain'⟩ | ⟨l', hd, hletter', rfl⟩ | hd <;>
    rw [hc, hd] at h
  · simpa using h
  · exact absurd (List.head_eq_of_cons_eq h) hplain
  · exact absurd (List.head_eq_of_cons_eq h) hplain
  · exact absurd (List.head_eq_of_cons_eq h).symm hplain'
  · obtain ⟨rfl, rfl⟩ : l = l' ∧ x = y := by simpa using h
    exact ⟨rfl, rfl⟩
  · exact absurd (List.head_eq_of_cons_eq (List.tail_eq_of_cons_eq h)) hletter
  · exact absurd (List.head_eq_of_cons_eq h).symm hplain'
  · exact absurd (List.head_eq_of_cons_eq (List.tail_eq_of_cons_eq h)).symm hletter'
  · simp only [List.cons_append, List.append_assoc, List.nil_append, List.cons.injEq,
      true_and] at h
    obtain ⟨hdigits, rfl⟩ :=
      append_cons_inj (brace_not_mem_toDigits _) (brace_not_mem_toDigits _) h
    exact ⟨Char.toNat_inj.1 (toDigits_injective hdigits), rfl⟩

theorem escape_ne_nil (c : Char) : escape '"' c ≠ [] := by
  rcases escape_cases c with ⟨hc, -⟩ | ⟨l, hc, -⟩ | hc <;> simp [hc]

theorem flatMap_escape_inj {s t : List Char}
    (h : s.flatMap (escape '"') = t.flatMap (escape '"')) : s = t := by
  induction s generalizing t with
  | nil =>
    cases t with
    | nil => rfl
    | cons d t => exact absurd h.symm (by simp [escape_ne_nil])
  | cons c s ih =>
    cases t with
    | nil => exact absurd h (by simp [escape_ne_nil])
    | cons d t =>
      obtain ⟨rfl, hrest⟩ := escape_append_inj h
      rw [ih hrest]

theorem string_injective : Function.Injective string := by
  intro s t h
  have hlist := String.ofList_injective h
  have hescaped := List.append_cancel_right (List.tail_eq_of_cons_eq hlist)
  exact String.toList_inj.1 (flatMap_escape_inj hescaped)

end PredictiveParsing.Quoted
