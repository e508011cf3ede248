import Mathlib.Data.Finset.Card
import PredictiveParsing.Proofs.Saturation

/-!
# Passes in any order

A value holds facts, and visiting a place adds the facts that the place gives. Passes that visit
every place may do so in any order, and in another one each time. As there are only finitely many
facts to add, some pass has no effect, and by then the value holds all that its places give. If they
give no less where more is held already, it is the least value that holds what it started with and
what its own places give, no more and no less. Main statements: `exists_idle_pass` and `run_closed`
for growth, `isLeast_of_idle` and `endsLeast` for accumulation.
-/
namespace PredictiveParsing

def Saturation.afterPasses {α β : Type} (visit : α → β → α) (start : α) (order : Nat → List β) :
    (n : Nat) → α
  | 0 => start
  | n + 1 => (order n).foldl visit (afterPasses visit start order n)

/-- Values of type `α` that hold facts of type `ι` and grow by visits to places of type `β`. -/
structure Growth (α β ι : Type) where
  Fits : α → Prop
  Holds : α → ι → Prop
  Place : β → Prop
  /-- `Gives a b i`: the place `b` gives the fact `i` where `a` holds so far. -/
  Gives : α → β → ι → Prop
  start : α
  visit : α → β → α
  possible : Finset ι
  fits_start : Fits start
  fits_visit {a : α} (b : β) (h : Fits a) : Fits (visit a b)
  ext {a a' : α} (h : Fits a) (h' : Fits a') (hiff : ∀ i, Holds a i ↔ Holds a' i) : a = a'
  holds_visit {a : α} {b : β} {i : ι} (h : Fits a) : Holds (visit a b) i ↔ Holds a i ∨ Gives a b i
  place_of_gives {a : α} {b : β} {i : ι} (h : Gives a b i) : Place b
  possible_start {i : ι} (h : Holds start i) : i ∈ possible
  possible_gives {a : α} {b : β} {i : ι} (hle : ∀ j, Holds a j → j ∈ possible)
    (h : Gives a b i) : i ∈ possible

namespace Growth

variable {α β ι : Type} (G : Growth α β ι)

def Below (a a' : α) : Prop := ∀ i, G.Holds a i → G.Holds a' i

def Covers (order : List β) : Prop := ∀ b, G.Place b → b ∈ order

def Closed (a : α) : Prop := ∀ b i, G.Gives a b i → G.Holds a i

def after (order : Nat → List β) (n : Nat) : α := Saturation.afterPasses G.visit G.start order n

structure Kept (a : α) : Prop where
  fits : G.Fits a
  possible : ∀ i, G.Holds a i → i ∈ G.possible
  above : G.Below G.start a

variable {G} {a : α} {l : List β}

theorem below_visit (h : G.Fits a) (b : β) : G.Below a (G.visit a b) := fun _ hi =>
  (G.holds_visit h).2 (.inl hi)

theorem kept_start : G.Kept G.start :=
  ⟨G.fits_start, fun _ hi => G.possible_start hi, fun _ hi => hi⟩

theorem Kept.visit (h : G.Kept a) (b : β) : G.Kept (G.visit a b) where
  fits := G.fits_visit b h.fits
  possible i hi := by
    rcases (G.holds_visit h.fits).1 hi with hi | hgives
    · exact h.possible i hi
    · exact G.possible_gives h.possible hgives
  above i hi := below_visit h.fits b i (h.above i hi)

theorem Kept.foldl (h : G.Kept a) (l : List β) : G.Kept (l.foldl G.visit a) :=
  List.foldlRecOn l G.visit h fun _ ha b _ => ha.visit b

theorem kept_after (order : Nat → List β) (n : Nat) : G.Kept (G.after order n) := by
  induction n with
  | zero => exact kept_start
  | succ n ih => exact ih.foldl (order n)

theorem below_foldl (h : G.Fits a) : G.Below a (l.foldl G.visit a) := by
  induction l generalizing a with
  | nil => exact fun _ hi => hi
  | cons b l ih => exact fun i hi => ih (G.fits_visit b h) i (below_visit h b i hi)

theorem visit_eq_of_foldl_eq (h : G.Fits a) (heq : l.foldl G.visit a = a) :
    ∀ b ∈ l, G.visit a b = a := by
  induction l with
  | nil => simp
  | cons b l ih =>
    rw [List.foldl_cons] at heq
    have hback : G.Below (G.visit a b) a := by
      have hle := below_foldl (l := l) (G.fits_visit b h)
      rwa [heq] at hle
    have hfirst : G.visit a b = a :=
      G.ext (G.fits_visit b h) h fun i => ⟨hback i, below_visit h b i⟩
    rw [hfirst] at heq
    exact List.forall_mem_cons.2 ⟨hfirst, ih heq⟩

theorem closed_of_foldl_eq (h : G.Fits a) (hcovers : G.Covers l) (heq : l.foldl G.visit a = a) :
    G.Closed a := by
  intro b i hgives
  have hvisit := visit_eq_of_foldl_eq h heq b (hcovers b (G.place_of_gives hgives))
  rw [← hvisit]
  exact (G.holds_visit h).2 (.inr hgives)

open scoped Classical in
noncomputable def weight (G : Growth α β ι) (a : α) : Nat := (G.possible.filter (G.Holds a)).card

open scoped Classical in
theorem weight_le (a : α) : G.weight a ≤ G.possible.card := Finset.card_filter_le _ _

open scoped Classical in
theorem Kept.weight_lt (h : G.Kept a) (hne : l.foldl G.visit a ≠ a) :
    G.weight a < G.weight (l.foldl G.visit a) := by
  have hend := h.foldl l
  have hle : G.Below a (l.foldl G.visit a) := below_foldl h.fits
  refine Finset.card_lt_card (Finset.ssubset_iff_subset_ne.2 ⟨fun i hi => ?_, fun heq => hne ?_⟩)
  · rw [Finset.mem_filter] at hi ⊢
    exact ⟨hi.1, hle i hi.2⟩
  · refine G.ext hend.fits h.fits fun i => ⟨fun hi => ?_, hle i⟩
    have hin := Finset.mem_filter.2 ⟨hend.possible i hi, hi⟩
    rw [← heq] at hin
    exact (Finset.mem_filter.1 hin).2

theorem exists_idle_pass (G : Growth α β ι) (order : Nat → List β) :
    ∃ n, G.after order (n + 1) = G.after order n := by
  by_contra hnone
  have hgrows (n : Nat) : n ≤ G.weight (G.after order n) := by
    induction n with
    | zero => exact Nat.zero_le _
    | succ n ih =>
      have hlt := (kept_after order n).weight_lt fun heq => hnone ⟨n, heq⟩
      exact Nat.succ_le_of_lt (Nat.lt_of_le_of_lt ih hlt)
  exact Nat.not_succ_le_self _ ((hgrows (G.possible.card + 1)).trans (weight_le _))

theorem run_idle [DecidableEq α] {pass : α → α} {rounds : Nat}
    (hpass : ∀ a, pass a = l.foldl G.visit a) (hrounds : G.possible.card + 1 < 2 ^ rounds)
    {keep : α → Prop} (hstart : keep G.start) (hkeep : ∀ a b, keep a → keep (G.visit a b))
    (hkept : ∀ a, keep a → G.Kept a) :
    (Saturation.run pass rounds G.start).settled = true ∧
      keep (Saturation.run pass rounds G.start).value ∧
      l.foldl G.visit (Saturation.run pass rounds G.start).value =
        (Saturation.run pass rounds G.start).value := by
  have hkeeps (a : α) (h : keep a) : keep (pass a) := by
    rw [hpass]
    exact List.foldlRecOn l G.visit h fun a ha b _ => hkeep a b ha
  have hgrow (a : α) (h : keep a) (hne : pass a ≠ a) : G.weight a < G.weight (pass a) := by
    rw [hpass] at hne ⊢
    exact (hkept a h).weight_lt hne
  obtain ⟨hend, hsettled⟩ :=
    Saturation.run_settles hkeeps hgrow hstart (fun a _ => weight_le a) hrounds
  have heq := hend.settled hsettled
  rw [hpass] at heq
  exact ⟨hsettled, hend.keep, heq⟩

/-- If the order leaves out no place, the value holds all that its places give. -/
theorem run_closed [DecidableEq α] {pass : α → α} {rounds : Nat}
    (hpass : ∀ a, pass a = l.foldl G.visit a) (hcovers : G.Covers l)
    (hrounds : G.possible.card + 1 < 2 ^ rounds) :
    G.Kept (Saturation.run pass rounds G.start).value ∧
      G.Closed (Saturation.run pass rounds G.start).value := by
  obtain ⟨-, hkept, heq⟩ :=
    run_idle hpass hrounds kept_start (fun _ b h => h.visit b) fun _ h => h
  exact ⟨hkept, closed_of_foldl_eq hkept.fits hcovers heq⟩

end Growth

/-- Growth in which a place gives no less where more is held. -/
structure Accumulation (α β ι : Type) extends Growth α β ι where
  gives_mono {a a' : α} {b : β} {i : ι} (hle : ∀ j, Holds a j → Holds a' j) (h : Gives a b i) :
    Gives a' b i

namespace Accumulation

variable {α β ι : Type} (A : Accumulation α β ι)

structure Solves (a : α) : Prop where
  fits : A.Fits a
  holds_iff : ∀ i, A.Holds a i ↔ A.Holds A.start i ∨ ∃ b, A.Gives a b i

structure IsLeast (a : α) : Prop where
  solves : A.Solves a
  below : ∀ a', A.Solves a' → A.Below a a'

/-- What is known of a value on the way: what it holds is given by its own places if it was not
there at the start, and is held by every solution. -/
structure Reached (a : α) : Prop extends A.Kept a where
  founded : ∀ i, A.Holds a i → A.Holds A.start i ∨ ∃ b, A.Gives a b i
  below : ∀ a', A.Solves a' → A.Below a a'

variable {A} {a a' : α} {l : List β}

theorem IsLeast.eq (h : A.IsLeast a) (h' : A.IsLeast a') : a = a' :=
  A.ext h.solves.fits h'.solves.fits fun i => ⟨h.below a' h'.solves i, h'.below a h.solves i⟩

theorem reached_start : A.Reached A.start where
  toKept := Growth.kept_start
  founded _ hi := .inl hi
  below _ hsolves i hi := (hsolves.holds_iff i).2 (.inl hi)

theorem Reached.visit (h : A.Reached a) (b : β) : A.Reached (A.visit a b) where
  toKept := h.toKept.visit b
  founded i hi := by
    have hmore {c : β} (hgives : A.Gives a c i) : ∃ c, A.Gives (A.visit a b) c i :=
      ⟨c, A.gives_mono (Growth.below_visit h.fits b) hgives⟩
    rcases (A.holds_visit h.fits).1 hi with hi | hgives
    · exact (h.founded i hi).imp_right fun ⟨_, hgives⟩ => hmore hgives
    · exact .inr (hmore hgives)
  below a' hsolves i hi := by
    rcases (A.holds_visit h.fits).1 hi with hi | hgives
    · exact h.below a' hsolves i hi
    · exact (hsolves.holds_iff i).2 (.inr ⟨b, A.gives_mono (h.below a' hsolves) hgives⟩)

theorem reached_after (order : Nat → List β) (n : Nat) : A.Reached (A.after order n) := by
  induction n with
  | zero => exact reached_start
  | succ n ih => exact List.foldlRecOn (order n) A.visit ih fun _ ha b _ => ha.visit b

/-- A value on the way that no visit changes any more is the least solution. -/
theorem Reached.isLeast (h : A.Reached a) (hcovers : A.Covers l) (heq : l.foldl A.visit a = a) :
    A.IsLeast a := by
  have hclosed := Growth.closed_of_foldl_eq h.fits hcovers heq
  refine ⟨⟨h.fits, fun i => ⟨h.founded i, ?_⟩⟩, h.below⟩
  rintro (hi | ⟨b, hgives⟩)
  · exact h.above i hi
  · exact hclosed b i hgives

theorem isLeast_of_idle {order : Nat → List β} {n : Nat} (hcovers : A.Covers (order n))
    (hidle : A.after order (n + 1) = A.after order n) : A.IsLeast (A.after order n) :=
  (reached_after order n).isLeast hcovers hidle

end Accumulation

/-- The saturation `s` by `pass` came to a pass without effect, with the least solution as its
value. A pass visits every place in some order, and passes that visit them in any other order come
to the same value. -/
structure Saturation.EndsLeast {α β : Type} (visit : α → β → α) (start : α)
    (Covers : List β → Prop) (Solves : α → Prop) (Below : α → α → Prop) (pass : α → α)
    (s : Saturation α) : Prop where
  ordered : ∃ order, Covers order ∧ ∀ a, pass a = order.foldl visit a
  settled : s.settled = true
  solves : Solves s.value
  least : ∀ a, Solves a → Below s.value a
  ends : ∀ order : Nat → List β,
    ∃ n, afterPasses visit start order (n + 1) = afterPasses visit start order n
  same : ∀ order : Nat → List β, (∀ n, Covers (order n)) →
    ∀ n, afterPasses visit start order (n + 1) = afterPasses visit start order n →
      afterPasses visit start order n = s.value

theorem Accumulation.endsLeast {α β ι : Type} [DecidableEq α] (A : Accumulation α β ι)
    {Solves : α → Prop} (hsolves : ∀ a, A.Solves a ↔ Solves a) {Below : α → α → Prop}
    (hbelow : ∀ a a', A.Below a a' → Below a a') {pass : α → α} {rounds : Nat} {l : List β}
    (hpass : ∀ a, pass a = l.foldl A.visit a) (hcovers : A.Covers l)
    (hrounds : A.possible.card + 1 < 2 ^ rounds) :
    Saturation.EndsLeast A.visit A.start A.Covers Solves Below pass
      (Saturation.run pass rounds A.start) := by
  obtain ⟨hsettled, hreached, heq⟩ :=
    A.run_idle hpass hrounds reached_start (fun _ b h => h.visit b) fun _ h => h.toKept
  have hleast := hreached.isLeast hcovers heq
  exact {
    ordered := ⟨l, hcovers, hpass⟩
    settled := hsettled
    solves := (hsolves _).1 hleast.solves
    least a ha := hbelow _ _ (hleast.below a ((hsolves a).2 ha))
    ends := A.exists_idle_pass
    same order horder n hidle := (isLeast_of_idle (horder n) hidle).eq hleast }

end PredictiveParsing
