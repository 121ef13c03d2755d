/-
# Chains through a table that grows

Items of a table, each with the index of the one before it in its chain.  An item is only ever
added at the end of the table and at the front of one chain, so `Chain` stays true of every other
chain (`Chain.append`), and following the links gives the items of a chain (`follow_eq`).
-/
import Mathlib.Data.UInt

namespace Srs.BackLinks

open List

variable {α : Type} (previous : α → Option Nat)

/-- The items that come up when the links are followed from an index. -/
def Chain (table : List α) : Option Nat → List α → Prop
  | none, items => items = []
  | some _, [] => False
  | some i, a :: items => table[i]? = some a ∧ Chain table (previous a) items

/-- Follows the links for at most `fuel` items. -/
def follow (table : List α) : Nat → Option Nat → Option (List α)
  | _, none => some []
  | 0, some _ => none
  | fuel + 1, some i =>
    table[i]?.bind fun a => (follow table fuel (previous a)).map (a :: ·)

variable {previous} {table : List α}

variable {items : List α}

theorem follow_eq : ∀ {start : Option Nat} {fuel : Nat},
    Chain previous table start items → items.length ≤ fuel →
      follow previous table fuel start = some items := by
  induction items with
  | nil =>
    intro start fuel h hfuel
    cases start with
    | none => cases fuel <;> rfl
    | some i => exact h.elim
  | cons a items ih =>
    intro start fuel h hfuel
    cases start with
    | none => exact absurd h (cons_ne_nil a items)
    | some i =>
      cases fuel with
      | zero => exact absurd hfuel (Nat.not_succ_le_zero _)
      | succ fuel =>
        rw [follow, h.1, Option.bind_some, ih h.2 (Nat.le_of_succ_le_succ hfuel)]
        rfl

/-- Items at the end of the table do not matter. -/
theorem Chain.append (more : List α) : ∀ {start : Option Nat},
    Chain previous table start items → Chain previous (table ++ more) start items := by
  induction items with
  | nil =>
    intro start h
    cases start with
    | none => rfl
    | some i => exact h.elim
  | cons a items ih =>
    intro start h
    cases start with
    | none => exact absurd h (cons_ne_nil a items)
    | some i =>
      refine ⟨?_, ih h.2⟩
      rw [getElem?_append_left (List.getElem?_eq_some_iff.mp h.1).1]
      exact h.1

/-- **A new item in front**: it is linked to what was the front before. -/
theorem Chain.push {start : Option Nat} {a : α}
    (h : Chain previous table start items) (ha : previous a = start) :
    Chain previous (table ++ [a]) (some table.length) (a :: items) := by
  refine ⟨getElem?_concat_length, ?_⟩
  rw [ha]
  exact h.append [a]

end Srs.BackLinks
