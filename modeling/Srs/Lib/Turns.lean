/-
# Recursions with turns

A recursion without a bound of its own is given a number of turns and fails with an error of a kind
that is cut off (`cut`) when they are used up.  `Below` compares two such runs: where the first is
not cut off, the second has the same result.  It is kept by sequencing (`Below.bind`), so that a
comparison of two recursions is one of their steps, and a step that is below the next one is below
every later one (`below_of_le`).
-/
import Mathlib.Data.UInt

namespace Srs.Turns

variable {ε α β : Type} {cut : ε → Prop}

/-- The run is not cut off. -/
def Finishes (cut : ε → Prop) (x : Except ε α) : Prop := ∀ e, x = .error e → ¬ cut e

/-- Where the first run is not cut off, the second has the same result. -/
def Below (cut : ε → Prop) (x y : Except ε α) : Prop := Finishes cut x → y = x

theorem bind_of_ok (a : α) (f : α → Except ε β) : ((.ok a : Except ε α) >>= f) = f a := rfl

theorem bind_of_error (e : ε) (f : α → Except ε β) : ((.error e : Except ε α) >>= f) = .error e := rfl

theorem finishes_ok (a : α) : Finishes cut (.ok a : Except ε α) := fun _ h => absurd h (by simp)

theorem finishes_error_iff {e : ε} : Finishes cut (.error e : Except ε α) ↔ ¬ cut e :=
  ⟨fun h => h e rfl, fun h _ he => Except.error.inj he ▸ h⟩

theorem Finishes.bind {x : Except ε α} {f : α → Except ε β} (hx : Finishes cut x)
    (hf : ∀ a, x = .ok a → Finishes cut (f a)) : Finishes cut (x >>= f) := by
  cases x with
  | ok a => exact hf a rfl
  | error e => exact finishes_error_iff.mpr (finishes_error_iff.mp hx)

theorem Below.refl (x : Except ε α) : Below cut x x := fun _ => rfl

theorem Below.of_cut {e : ε} (h : cut e) (y : Except ε α) : Below cut (.error e) y :=
  fun hx => absurd h (finishes_error_iff.mp hx)

theorem Below.trans {x y z : Except ε α} (hxy : Below cut x y) (hyz : Below cut y z) :
    Below cut x z := by
  intro hx
  have hy := hxy hx
  rw [← hy] at hx ⊢
  exact hyz hx

theorem Below.bind {x y : Except ε α} {f g : α → Except ε β} (h : Below cut x y)
    (hnext : ∀ a, x = .ok a → Below cut (f a) (g a)) : Below cut (x >>= f) (y >>= g) := by
  intro hx
  cases x with
  | ok a =>
    rw [h (finishes_ok a)]
    exact hnext a rfl hx
  | error e =>
    rw [h (finishes_error_iff.mpr (finishes_error_iff.mp hx))]
    rfl

/-- A run that each further turn keeps is kept by any number of them. -/
theorem below_of_le {run : Nat → Except ε α} (h : ∀ n, Below cut (run n) (run (n + 1)))
    {n m : Nat} (hle : n ≤ m) : Below cut (run n) (run m) := by
  induction m, hle using Nat.le_induction with
  | base => exact .refl _
  | succ m _ ih => exact ih.trans (h m)

end Srs.Turns
