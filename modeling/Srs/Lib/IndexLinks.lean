/-
# Lists that are linked by indices

A table of indices, in which the entry of an index is the next one and 0 ends the list.  `Linked`
says which indices come up when the links are followed, `find` follows them until a test succeeds,
and `Linked.concat` puts one more index at the end.
-/
import Mathlib.Data.UInt

namespace Srs.IndexLinks

open List

/-- The links lead from the first index over all of them to the end. -/
def Linked (next : List Nat) : Nat → List Nat → Prop
  | x, [] => x = 0
  | x, i :: is => x = i ∧ 0 < i ∧ ∃ y, next[i]? = some y ∧ Linked next y is

/-- Follows the links for at most `fuel` steps; `none` where that is too few, or where a link or
the test is out of bounds. -/
def find (test : Nat → Option Bool) (next : List Nat) : Nat → Nat → Option (Option Nat)
  | 0, x => if x = 0 then some none else none
  | fuel + 1, x =>
    if x = 0 then some none
    else
      (test x).bind fun found =>
        if found then some (some x) else next[x]?.bind (find test next fuel)

variable {next : List Nat} {is : List Nat}

/-- **Following the links tries one index after the other.** -/
theorem find_eq {test : Nat → Option Bool} {p : Nat → Bool}
    {x fuel : Nat} (h : Linked next x is) (htest : ∀ i ∈ is, test i = some (p i))
    (hfuel : is.length ≤ fuel) : find test next fuel x = some (is.find? p) := by
  induction is generalizing x fuel with
  | nil =>
    obtain rfl : x = 0 := h
    cases fuel <;> rfl
  | cons i is ih =>
    obtain ⟨rfl, hpos, y, hnext, hrest⟩ := h
    cases fuel with
    | zero => exact absurd hfuel (Nat.not_succ_le_zero _)
    | succ fuel =>
      rw [find, if_neg (Nat.ne_of_gt hpos), htest x mem_cons_self, Option.bind_some,
        find?_cons]
      cases p x with
      | true => rfl
      | false =>
        rw [if_neg Bool.false_ne_true, hnext, Option.bind_some]
        exact ih hrest (fun j hj => htest j (mem_cons_of_mem x hj))
          (Nat.le_of_succ_le_succ hfuel)

/-- A link of another list does not matter. -/
theorem Linked.set {x k : Nat} (h : Linked next x is)
    (hk : k ∉ is) (m : Nat) : Linked (next.set k m) x is := by
  induction is generalizing x with
  | nil => exact h
  | cons i is ih =>
    obtain ⟨rfl, hpos, y, hnext, hrest⟩ := h
    rw [mem_cons, not_or] at hk
    refine ⟨rfl, hpos, y, ?_, ih hrest hk.2⟩
    rw [getElem?_set_ne hk.1]
    exact hnext

/-- **One more index at the end**: the last one is linked to it. -/
theorem Linked.concat {next : List Nat} {x last m : Nat} {is : List Nat}
    (h : Linked next x (is ++ [last])) (hlast : last ∉ is) (hm : 0 < m) (hne : m ≠ last)
    (hend : next[m]? = some 0) : Linked (next.set last m) x (is ++ [last] ++ [m]) := by
  induction is generalizing x with
  | nil =>
    obtain ⟨rfl, hpos, y, hnext, -⟩ := h
    have hlt := (List.getElem?_eq_some_iff.mp hnext).1
    refine ⟨rfl, hpos, m, ?_, rfl, hm, 0, ?_, rfl⟩
    · rw [getElem?_set_self hlt]
    · rw [getElem?_set_ne (Ne.symm hne)]
      exact hend
  | cons i is ih =>
    obtain ⟨rfl, hpos, y, hnext, hrest⟩ := h
    rw [mem_cons, not_or] at hlast
    refine ⟨rfl, hpos, y, ?_, ih hrest hlast.2⟩
    rw [getElem?_set_ne hlast.1]
    exact hnext

end Srs.IndexLinks
