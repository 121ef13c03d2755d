/-
# Arithmetic and indices that are checked

A subtraction that goes below zero and an index outside its list are violations.  `Holds` says that
a computation meets none and what it returns; its rules take a computation apart from the front, so
that one made of these operations becomes a condition on numbers.
-/
import Srs.Lib.Buffers

namespace Srs.Checked

open Buffers

/-- What a program may not do. -/
inductive Violation where
  | underflow
  | outOfRange
  deriving DecidableEq

variable {α β : Type}

/-! ## 1. The operations -/

/-- `a - b` -/
def sub (a b : Nat) : Except Violation Nat := if b ≤ a then .ok (a - b) else .error .underflow

/-- `list[i]` -/
def get (list : List α) (i : Nat) : Except Violation α :=
  match list[i]? with
  | some a => .ok a
  | none => .error .outOfRange

/-- `list[i] = a` -/
def set (list : List α) (i : Nat) (a : α) : Except Violation (List α) :=
  if i < list.length then .ok (list.set i a) else .error .outOfRange

/-- `list[start..stop]` -/
def range (list : List α) (start stop : Nat) : Except Violation (List α) :=
  match slice list start stop with
  | some piece => .ok piece
  | none => .error .outOfRange

/-- `list[start..stop].copy_from_slice(piece)`, which also requires that the lengths agree. -/
def copy (list : List α) (start stop : Nat) (piece : List α) : Except Violation (List α) :=
  if start ≤ stop ∧ stop ≤ list.length ∧ piece.length = stop - start then
    .ok (splice list start piece)
  else .error .outOfRange

/-! ## 2. Computations without violations -/

/-- There is no violation, and the result has the property. -/
def Holds (x : Except Violation α) (p : α → Prop) : Prop := ∃ a, x = .ok a ∧ p a

variable {p : α → Prop} {list : List α}

@[simp] theorem holds_ok {a : α} : Holds (.ok a) p ↔ p a := by simp [Holds]

@[simp] theorem holds_error {e : Violation} : ¬ Holds (.error e) p := by simp [Holds]

@[simp] theorem holds_bind {x : Except Violation β} {f : β → Except Violation α} :
    Holds (x >>= f) p ↔ Holds x fun b => Holds (f b) p := by
  cases x <;> simp [Holds, bind, Except.bind]

@[simp] theorem holds_ite {c : Prop} [Decidable c] {x y : Except Violation α} :
    Holds (if c then x else y) p ↔ if c then Holds x p else Holds y p := by
  split <;> rfl

@[simp] theorem holds_sub {a b : Nat} {p : Nat → Prop} :
    Holds (sub a b) p ↔ b ≤ a ∧ p (a - b) := by
  by_cases h : b ≤ a <;> simp [sub, h]

@[simp] theorem holds_get {i : Nat} : Holds (get list i) p ↔ ∃ h : i < list.length, p list[i] := by
  unfold get
  split
  case h_1 a ha =>
    obtain ⟨hi, rfl⟩ := List.getElem?_eq_some_iff.mp ha
    simp [hi]
  case h_2 hnone =>
    rw [List.getElem?_eq_none_iff] at hnone
    simp only [holds_error, false_iff, not_exists]
    exact fun hi => absurd hi (by omega)

@[simp] theorem holds_set {i : Nat} {a : α} {p : List α → Prop} :
    Holds (set list i a) p ↔ i < list.length ∧ p (list.set i a) := by
  by_cases h : i < list.length <;> simp [set, h]

variable {start stop : Nat}

@[simp] theorem holds_range {p : List α → Prop} :
    Holds (range list start stop) p ↔ start ≤ stop ∧ stop ≤ list.length ∧
      p ((list.drop start).take (stop - start)) := by
  unfold range
  split
  case h_1 piece hpiece =>
    obtain ⟨hle, hstop, rfl⟩ := slice_eq_some.mp hpiece
    simp [hle, hstop]
  case h_2 hnone =>
    simp only [holds_error, false_iff, not_and]
    intro hle hstop
    rw [slice_of_le hle hstop] at hnone
    exact absurd hnone (by simp)

@[simp] theorem holds_copy {piece : List α} {p : List α → Prop} :
    Holds (copy list start stop piece) p ↔
      (start ≤ stop ∧ stop ≤ list.length ∧ piece.length = stop - start) ∧
        p (splice list start piece) := by
  by_cases h : start ≤ stop ∧ stop ≤ list.length ∧ piece.length = stop - start <;> simp [copy, h]

end Srs.Checked
