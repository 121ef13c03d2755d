/-
# Trailers

Something that is put behind data is recognised from the end of it: by an ending
(`stripSuffix_append`), or by a prefix and a length.  Taking from the front of a list fails where it
is too short.
-/
import Mathlib.Data.UInt

namespace Srs.Trailers

open List

variable {α : Type}

/-! ## 1. Endings and beginnings -/

section

variable [DecidableEq α] {l l' : List α}

/-- `slice.strip_suffix(ending)`. -/
def stripSuffix (ending l : List α) : Option (List α) :=
  if ending <:+ l then some (l.take (l.length - ending.length)) else none

/-- `slice.strip_prefix(start)`. -/
def stripPrefix (start l : List α) : Option (List α) :=
  if start <+: l then some (l.drop start.length) else none

theorem stripSuffix_append (l ending : List α) : stripSuffix ending (l ++ ending) = some l := by
  rw [stripSuffix, if_pos (suffix_append l ending), length_append, Nat.add_sub_cancel,
    take_left]

theorem stripPrefix_append (start l : List α) : stripPrefix start (start ++ l) = some l := by
  rw [stripPrefix, if_pos (prefix_append start l), drop_left]

theorem stripPrefix_eq_some {start : List α} :
    stripPrefix start l = some l' ↔ l = start ++ l' := by
  constructor
  · intro h
    unfold stripPrefix at h
    split at h
    · rename_i hpre
      obtain ⟨back, rfl⟩ := hpre
      rw [drop_left] at h
      rw [Option.some.inj h]
    · cases h
  · rintro rfl
    exact stripPrefix_append start l'

end

/-! ## 2. Lengths and ranges -/

/-- `slice.get(start..stop)`. -/
def getRange (l : List α) (start stop : Nat) : Option (List α) :=
  if start ≤ stop ∧ stop ≤ l.length then some ((l.take stop).drop start) else none

/-- `a.checked_sub(b)`. -/
def checkedSub (a b : Nat) : Option Nat := if b ≤ a then some (a - b) else none

/-- The first `n` items and the rest. -/
def takeExact (n : Nat) (l : List α) : Option (List α × List α) :=
  if n ≤ l.length then some (l.take n, l.drop n) else none

theorem checkedSub_add (a b : Nat) : checkedSub (a + b) b = some a := by
  rw [checkedSub, if_pos (Nat.le_add_left b a), Nat.add_sub_cancel]

theorem checkedSub_eq_some {a b c : Nat} : checkedSub a b = some c ↔ a = c + b := by
  unfold checkedSub
  split
  · rw [Option.some.injEq]
    omega
  · constructor
    · exact fun h => nomatch h
    · omega

theorem takeExact_append {n : Nat} (l rest : List α) (h : l.length = n) :
    takeExact n (l ++ rest) = some (l, rest) := by
  rw [takeExact, if_pos (by rw [length_append]; omega), take_left' h, drop_left' h]

/-- What stands behind the front of a list. -/
theorem getRange_append (a b c : List α) :
    getRange (a ++ (b ++ c)) a.length (a.length + b.length) = some b := by
  rw [getRange, if_pos ⟨Nat.le_add_right _ _, by simp only [length_append]; omega⟩,
    ← List.append_assoc, take_left' (by rw [length_append]), drop_left]

end Srs.Trailers
