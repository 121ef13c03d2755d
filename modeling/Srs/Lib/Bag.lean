/-
# Sums over a family of actors

The state of a system of many actors is often a sum over them: of the tasks they have in a bag,
of the resources they hold, of the work they have left.  One actor changes at a time, and
`sum_update` takes its summand out of the sum.
-/
import Mathlib.Algebra.BigOperators.Group.Finset.Piecewise
import Mathlib.Data.UInt

namespace Srs.Bag

variable {ι α M : Type} [DecidableEq ι] [AddCommMonoid M]

variable {s : Finset ι}

/-- One actor's summand, and the others'. -/
theorem sum_update {i : ι} (hi : i ∈ s) (f : ι → α → M) (state : ι → α) (a : α) :
    ∑ j ∈ s, f j (Function.update state i a j) = f i a + ∑ j ∈ s.erase i, f j (state j) := by
  rw [← Finset.add_sum_erase s _ hi, Function.update_self]
  refine congrArg (f i a + ·) (Finset.sum_congr rfl ?_)
  intro j hj
  rw [Function.update_of_ne (Finset.ne_of_mem_erase hj)]

/-- The same for the state as it is. -/
theorem sum_eq {i : ι} (hi : i ∈ s) (f : ι → α → M) (state : ι → α) :
    ∑ j ∈ s, f j (state j) = f i (state i) + ∑ j ∈ s.erase i, f j (state j) :=
  (Finset.add_sum_erase s (fun j => f j (state j)) hi).symm

end Srs.Bag
