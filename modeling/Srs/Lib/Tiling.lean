/-
# Tilings

Ranges of positions that follow one another without a gap (`Tiles`), and cutting ranges from the
front of another (`splitOff`, `cutEach`).  Chunks of a list are cut in the same way (`chunks`).
-/
import Mathlib.Data.UInt

namespace Srs.Tiling

open List Option

/-! ## 1. Ranges -/

/-- `len` positions from `start` on. -/
structure Range where
  start : Nat
  len : Nat
  deriving DecidableEq

namespace Range

def stop (r : Range) : Nat := r.start + r.len

/-- The position is one of the range. -/
def Covers (r : Range) (i : Nat) : Prop := r.start ≤ i ∧ i < r.stop

/-- From the first position of one range to the last of another. -/
def covering (a b : Range) : Range := ⟨a.start, b.start + b.len - a.start⟩

/-- The first `n` positions, and the others. -/
def splitOff (r : Range) (n : Nat) : Option (Range × Range) :=
  if n ≤ r.len then some (⟨r.start, n⟩, ⟨r.start + n, r.len - n⟩) else none

theorem splitOff_of_le {r : Range} {n : Nat} (h : n ≤ r.len) :
    r.splitOff n = some (⟨r.start, n⟩, ⟨r.start + n, r.len - n⟩) := if_pos h

/-- Two ranges of one length have the same positions where they start together, or where they have
none. -/
theorem covers_iff_covers {a b len : Nat} :
    (∀ i, Covers ⟨a, len⟩ i ↔ Covers ⟨b, len⟩ i) ↔ a = b ∨ len = 0 := by
  constructor
  · intro h
    by_contra hne
    have ha := (h a).mp ⟨Nat.le_refl a, by simp only [stop]; omega⟩
    have hb := (h b).mpr ⟨Nat.le_refl b, by simp only [stop]; omega⟩
    simp only [Covers] at ha hb
    omega
  · rintro (rfl | rfl) i
    · exact Iff.rfl
    · simp only [Covers, stop]
      omega

end Range

/-! ## 2. Tilings -/

/-- The ranges follow one another from `start` to `stop`. -/
def Tiles : Nat → List Range → Nat → Prop
  | start, [], stop => start = stop
  | start, r :: rs, stop => r.start = start ∧ Tiles (start + r.len) rs stop

variable {start stop : Nat} {rs : List Range} {β : Type}

theorem tiles_append {ts : List Range} :
    Tiles start (rs ++ ts) stop ↔ ∃ mid, Tiles start rs mid ∧ Tiles mid ts stop := by
  induction rs generalizing start with
  | nil =>
    constructor
    · intro h
      exact ⟨start, rfl, h⟩
    · rintro ⟨mid, rfl, h⟩
      exact h
  | cons r rs ih =>
    simp only [cons_append, Tiles, ih]
    constructor
    · rintro ⟨hr, mid, hrs, hts⟩
      exact ⟨mid, ⟨hr, hrs⟩, hts⟩
    · rintro ⟨mid, ⟨hr, hrs⟩, hts⟩
      exact ⟨hr, mid, hrs, hts⟩

/-- How many positions there are in all. -/
def total (rs : List Range) : Nat := (rs.map Range.len).sum

@[simp]
theorem total_nil : total [] = 0 := rfl

@[simp]
theorem total_cons (r : Range) (rs : List Range) : total (r :: rs) = r.len + total rs := rfl

@[simp]
theorem total_append (rs ts : List Range) : total (rs ++ ts) = total rs + total ts := by
  rw [total, map_append, sum_append, total, total]

theorem Tiles.stop_eq (h : Tiles start rs stop) :
    stop = start + total rs := by
  induction rs generalizing start with
  | nil => exact h.symm
  | cons r rs ih =>
    rw [total_cons, ← Nat.add_assoc]
    exact ih h.2

/-- A tiling that is not empty is covered from its first range to its last. -/
theorem Tiles.covering_eq {r : Range}
    (h : Tiles start (r :: rs) stop) :
    Range.covering r ((r :: rs).getLast (cons_ne_nil r rs)) = ⟨start, stop - start⟩ := by
  have hlast : ∀ {start : Nat} {r : Range} {rs : List Range}, Tiles start (r :: rs) stop →
      ((r :: rs).getLast (cons_ne_nil r rs)).start
        + ((r :: rs).getLast (cons_ne_nil r rs)).len = stop := by
    intro start r rs
    induction rs generalizing start r with
    | nil =>
      rintro ⟨rfl, h⟩
      exact h
    | cons t ts ih =>
      rintro ⟨-, h⟩
      rw [getLast_cons_cons]
      exact ih h
  rw [Range.covering, hlast h, h.1]

/-! ## 3. Cutting from the front -/

/-- Goes over things, each of which cuts from the front of what is left. -/
def cutEach {α β : Type} (cut : α → Range → Option (β × Range)) :
    List α → Range → Option (List β × Range)
  | [], r => some ([], r)
  | x :: xs, r =>
    (cut x r).bind fun first =>
      (cutEach cut xs first.2).map fun rest => (first.1 :: rest.1, rest.2)

/-- What each thing makes of the place its range starts at. -/
def layEach {α β : Type} (n : α → Nat) (make : α → Nat → β) : Nat → List α → List β
  | _, [] => []
  | start, x :: xs => make x start :: layEach n make (start + n x) xs

theorem length_layEach {α : Type} (n : α → Nat) (make : α → Nat → β) (start : Nat)
    (xs : List α) : (layEach n make start xs).length = xs.length := by
  induction xs generalizing start with
  | nil => rfl
  | cons x xs ih => rw [layEach, length_cons, ih, length_cons]

/-- **What is cut from the front**, where there is enough for all. -/
theorem cutEach_eq {α : Type} {cut : α → Range → Option (β × Range)}
    {n : α → Nat} {make : α → Nat → β} (hcut : ∀ x r, n x ≤ r.len →
      cut x r = some (make x r.start, ⟨r.start + n x, r.len - n x⟩))
    (xs : List α) (r : Range) (h : (xs.map n).sum ≤ r.len) :
    cutEach cut xs r = some (layEach n make r.start xs,
      ⟨r.start + (xs.map n).sum, r.len - (xs.map n).sum⟩) := by
  induction xs generalizing r with
  | nil => rfl
  | cons x xs ih =>
    rw [map_cons, sum_cons] at h
    have hrest : (xs.map n).sum ≤ (⟨r.start + n x, r.len - n x⟩ : Range).len := by
      change (xs.map n).sum ≤ r.len - n x
      omega
    rw [cutEach, hcut x r (by omega), bind_some, ih _ hrest, map_some, layEach,
      map_cons, sum_cons]
    simp only [some.injEq, Prod.mk.injEq, Range.mk.injEq, true_and]
    omega

/-! ## 4. Chunks of a list -/

section

variable {α : Type}

/-- At most `fuel` runs of `n` elements. -/
def chunksUpTo (n : Nat) : Nat → List α → List (List α)
  | 0, _ => []
  | _, [] => []
  | fuel + 1, x :: xs => (x :: xs).take n :: chunksUpTo n fuel ((x :: xs).drop n)

/-- Runs of `n` elements, the last one with what is left. -/
def chunks (n : Nat) (xs : List α) : List (List α) := chunksUpTo n xs.length xs

theorem ne_nil_of_mem_chunks {n : Nat} (hn : 0 < n) {xs c : List α} (h : c ∈ chunks n xs) :
    c ≠ [] := by
  have hall : ∀ (fuel : Nat) (xs : List α), c ∈ chunksUpTo n fuel xs → c ≠ [] := by
    intro fuel
    induction fuel with
    | zero => exact fun xs h => absurd h not_mem_nil
    | succ fuel ih =>
      intro xs h
      cases xs with
      | nil => exact absurd h not_mem_nil
      | cons x xs =>
        rcases mem_cons.mp h with rfl | h
        · cases n with
          | zero => exact absurd hn (Nat.lt_irrefl 0)
          | succ n => exact cons_ne_nil _ _
        · exact ih _ h
  exact hall _ xs h

/-- **Every element is in one chunk**, in the order of the list. -/
theorem flatten_chunks {n : Nat} (hn : 0 < n) (xs : List α) : (chunks n xs).flatten = xs := by
  have hall : ∀ (fuel : Nat) (xs : List α), xs.length ≤ fuel →
      (chunksUpTo n fuel xs).flatten = xs := by
    intro fuel
    induction fuel with
    | zero =>
      intro xs h
      rw [length_eq_zero_iff.mp (Nat.le_zero.mp h)]
      rfl
    | succ fuel ih =>
      intro xs h
      cases xs with
      | nil => rfl
      | cons x xs =>
        have hless : ((x :: xs).drop n).length ≤ fuel := by
          rw [length_drop]
          omega
        rw [chunksUpTo, flatten_cons, ih _ hless, take_append_drop]
  exact hall _ xs (Nat.le_refl _)

end

end Srs.Tiling
