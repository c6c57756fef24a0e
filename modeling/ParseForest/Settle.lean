/-! # Repeating a step until nothing changes

Both the recognition of a span and the heights of nonterminals are found by repeating a step
from nothing.  `settle` repeats it a given number of times and stops early once a step changes
nothing, which makes no difference to the result (`settle_eq_iterate`).  When each step that
changes something makes it larger, up to a bound, enough repetitions reach a result that the step
leaves alone (`settle_fixed`).  With such a result the number given has cut nothing off: it is where
repeating the step ends without any bound (`Settles`, `exists_settles`). -/

namespace ParseForest

variable {α : Type}

/-- The given number of repetitions of a step. -/
def iterate (step : α → α) : Nat → α → α
  | 0, a => a
  | n + 1, a => iterate step n (step a)

/-- At most the given number of repetitions, stopping at the first that changes nothing. -/
def settle [DecidableEq α] (step : α → α) : Nat → α → α
  | 0, a => a
  | n + 1, a =>
    let next := step a
    if next = a then a else settle step n next

/-- Repeating a step until it changes nothing ends with this result, after the given number of steps that
did change something. -/
inductive Settles (step : α → α) : Nat → α → α → Prop
  | fixed {a : α} : step a = a → Settles step 0 a a
  | next {steps : Nat} {a b : α} :
      step a ≠ a → Settles step steps (step a) b → Settles step (steps + 1) a b

theorem iterate_of_fixed {step : α → α} {a : α} (h : step a = a) (n : Nat) :
    iterate step n a = a := by
  induction n with
  | zero => rfl
  | succ n ih => rw [iterate, h, ih]

theorem settle_eq_iterate [DecidableEq α] (step : α → α) (n : Nat) (a : α) :
    settle step n a = iterate step n a := by
  induction n generalizing a with
  | zero => rfl
  | succ n ih =>
    by_cases h : step a = a
    · simp [settle, h, iterate_of_fixed h]
    · simp [settle, h, iterate, ih]

theorem settle_succ [DecidableEq α] (step : α → α) (n : Nat) (a : α) :
    settle step (n + 1) a = if step a = a then a else settle step n (step a) := rfl

theorem settle_keeps [DecidableEq α] {step : α → α} {motive : α → Prop}
    (keep : ∀ a, motive a → motive (step a)) (n : Nat) {a : α} (h : motive a) :
    motive (settle step n a) := by
  induction n generalizing a with
  | zero => exact h
  | succ n ih =>
      rw [settle_succ]
      split
      · exact h
      · exact ih (keep a h)

/-- With enough repetitions the step leaves the result alone. -/
theorem settle_fixed [DecidableEq α] {step : α → α} {motive : α → Prop} (size : α → Nat)
    (bound : Nat) (keep : ∀ a, motive a → motive (step a)) (le_bound : ∀ a, motive a → size a ≤ bound)
    (grow : ∀ a, motive a → step a ≠ a → size a < size (step a)) (n : Nat) {a : α} (h : motive a)
    (enough : bound ≤ size a + n) : step (settle step n a) = settle step n a := by
  induction n generalizing a with
  | zero =>
      refine Decidable.byContradiction fun hne => ?_
      have h1 := grow a h hne
      have h2 := le_bound (step a) (keep a h)
      omega
  | succ n ih =>
      rw [settle_succ]
      split
      · assumption
      · rename_i hne
        have h1 := grow a h hne
        exact ih (keep a h) (by omega)

/-- A result that the step leaves alone is the end of repeating it. -/
theorem exists_settles [DecidableEq α] {step : α → α} {n : Nat} {a : α}
    (h : step (settle step n a) = settle step n a) :
    ∃ steps ≤ n, Settles step steps a (settle step n a) := by
  induction n generalizing a with
  | zero => exact ⟨0, Nat.le_refl 0, .fixed h⟩
  | succ n ih =>
      rw [settle_succ] at h ⊢
      by_cases hfixed : step a = a
      · rw [if_pos hfixed]
        exact ⟨0, Nat.zero_le _, .fixed hfixed⟩
      · rw [if_neg hfixed] at h ⊢
        obtain ⟨steps, hle, hsettles⟩ := ih h
        exact ⟨steps + 1, Nat.succ_le_succ hle, .next hfixed hsettles⟩

end ParseForest
