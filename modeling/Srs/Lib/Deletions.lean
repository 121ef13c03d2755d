/-
# Deleting ranges from a sequence

Ranges are pairs of an offset and a length.  `before` counts what is deleted at offsets before a
position, so a position moves down by that much; `cut` is the sequence without the ranges.  The
two fit together where ranges are sorted and apart (`Apart`): what is at a position that no range
covers is found at the place it moved to (`drop_cut`).
-/
import Mathlib.Algebra.BigOperators.Group.List.Basic
import Mathlib.Algebra.Order.BigOperators.Group.List
import Mathlib.Data.UInt

namespace Srs.Deletions

open List

/-! ## 1. Counting -/

/-- What is deleted at offsets before `x`. -/
def before (ranges : List (Nat × Nat)) (x : Nat) : Nat :=
  ((ranges.filter fun r => r.1 < x).map (·.2)).sum

/-- What is deleted at all. -/
def total (ranges : List (Nat × Nat)) : Nat := (ranges.map (·.2)).sum

@[simp] theorem before_nil (x : Nat) : before [] x = 0 := rfl

theorem before_cons (r : Nat × Nat) (ranges : List (Nat × Nat)) (x : Nat) :
    before (r :: ranges) x = (if r.1 < x then r.2 else 0) + before ranges x := by
  by_cases h : r.1 < x <;> simp [before, h]

theorem before_append (a b : List (Nat × Nat)) (x : Nat) :
    before (a ++ b) x = before a x + before b x := by
  simp [before]

theorem total_append (a b : List (Nat × Nat)) : total (a ++ b) = total a + total b := by
  simp [total]

theorem total_cons (r : Nat × Nat) (ranges : List (Nat × Nat)) :
    total (r :: ranges) = r.2 + total ranges := by
  simp [total]

variable {a b : List (Nat × Nat)}

theorem before_perm (h : a.Perm b) (x : Nat) : before a x = before b x :=
  ((h.filter _).map _).sum_eq

variable {ranges : List (Nat × Nat)} {x y : Nat}

theorem dvd_total {m : Nat} (h : ∀ r ∈ ranges, m ∣ r.2) :
    m ∣ total ranges := by
  induction ranges with
  | nil => exact Nat.dvd_zero m
  | cons r ranges ih =>
    rw [total_cons]
    exact (Nat.dvd_add_iff_right (h r mem_cons_self)).mp
      (ih fun q hq => h q (mem_cons_of_mem r hq))

theorem total_perm (h : a.Perm b) : total a = total b :=
  (h.map _).sum_eq

theorem before_mono (h : x ≤ y) (ranges : List (Nat × Nat)) :
    before ranges x ≤ before ranges y := by
  induction ranges with
  | nil => exact Nat.le_refl 0
  | cons r ranges ih =>
    rw [before_cons, before_cons]
    by_cases hx : r.1 < x
    · rw [if_pos hx, if_pos (by omega)]
      omega
    · rw [if_neg hx]
      omega

theorem before_le_total (ranges : List (Nat × Nat)) (x : Nat) : before ranges x ≤ total ranges := by
  induction ranges with
  | nil => exact Nat.le_refl 0
  | cons r ranges ih =>
    rw [before_cons, total_cons]
    split <;> omega

theorem before_eq_zero (h : ∀ r ∈ ranges, x ≤ r.1) :
    before ranges x = 0 := by
  have hnil : (ranges.filter fun r => r.1 < x) = [] := by
    refine filter_eq_nil_iff.mpr ?_
    intro r hr
    have := h r hr
    simpa using this
  rw [before, hnil]
  rfl

theorem before_eq_total (h : ∀ r ∈ ranges, r.1 < x) :
    before ranges x = total ranges := by
  have hall : (ranges.filter fun r => r.1 < x) = ranges := by
    refine filter_eq_self.mpr ?_
    intro r hr
    simpa using h r hr
  rw [before, hall]
  rfl

/-- From one position to a later one. -/
theorem before_eq_add_total (h : x ≤ y) (ranges : List (Nat × Nat)) :
    before ranges y = before ranges x + total (ranges.filter fun r => x ≤ r.1 && r.1 < y) := by
  induction ranges with
  | nil => rfl
  | cons r ranges ih =>
    rw [before_cons, before_cons, filter_cons]
    by_cases hx : r.1 < x
    · have hnot : ¬ x ≤ r.1 := by omega
      have hy : r.1 < y := by omega
      simp only [hx, hnot, hy, if_true, decide_false, Bool.false_and, Bool.false_eq_true, if_false]
      omega
    · have hle : x ≤ r.1 := by omega
      by_cases hy : r.1 < y
      · simp only [hx, hle, hy, if_true, if_false, decide_true, Bool.and_self, total_cons]
        omega
      · simp only [hx, hy, if_false, decide_false, Bool.and_false, Bool.false_eq_true]
        omega

/-! ## 2. Ranges that are sorted and apart -/

/-- The ranges are sorted, do not meet, and start at `pos` or later. -/
def Apart : Nat → List (Nat × Nat) → Prop
  | _, [] => True
  | pos, r :: rest => pos ≤ r.1 ∧ Apart (r.1 + r.2) rest

instance Apart.decidable : ∀ pos ranges, Decidable (Apart pos ranges)
  | _, [] => .isTrue trivial
  | pos, r :: rest =>
    have := Apart.decidable (r.1 + r.2) rest
    inferInstanceAs (Decidable (pos ≤ r.1 ∧ _))

theorem Apart.mono {a b : Nat} (hab : a ≤ b) (h : Apart b ranges) :
    Apart a ranges := by
  cases ranges with
  | nil => trivial
  | cons r rest => exact ⟨Nat.le_trans hab h.1, h.2⟩

theorem Apart.le : ∀ {pos : Nat}, Apart pos ranges →
    ∀ r ∈ ranges, pos ≤ r.1 := by
  induction ranges with
  | nil =>
    intro pos _ r hr
    exact absurd hr not_mem_nil
  | cons q rest ih =>
    intro pos h r hr
    rcases mem_cons.mp hr with rfl | hr
    · exact h.1
    · exact ih (h.2.mono (by have := h.1; omega)) r hr

/-- Before a position that no range covers, less is deleted than there is. -/
theorem Apart.before_add_le : ∀ {pos : Nat}, Apart pos ranges →
    ∀ {x : Nat}, pos ≤ x → (∀ r ∈ ranges, r.1 < x → r.1 + r.2 ≤ x) →
      pos + before ranges x ≤ x := by
  induction ranges with
  | nil =>
    intro pos _ x hx _
    simpa using hx
  | cons r rest ih =>
    intro pos h x hx hin
    rw [before_cons]
    by_cases hr : r.1 < x
    · have hend := hin r mem_cons_self hr
      have hrest := ih h.2 hend fun q hq => hin q (mem_cons_of_mem r hq)
      have := h.1
      rw [if_pos hr]
      omega
    · have hzero : before rest x = 0 := by
        refine before_eq_zero ?_
        intro q hq
        have := h.2.le q hq
        omega
      rw [if_neg hr, hzero]
      omega

/-- Between two positions that no range covers, at most what is there is deleted. -/
theorem Apart.before_le_add {ranges : List (Nat × Nat)} : ∀ {pos : Nat}, Apart pos ranges →
    ∀ {x y : Nat}, x ≤ y → (∀ r ∈ ranges, r.1 < y → r.1 + r.2 ≤ y) →
      before ranges y ≤ before ranges x + (y - x) := by
  induction ranges with
  | nil =>
    intro pos _ x y _ _
    exact Nat.zero_le _
  | cons r rest ih =>
    intro pos h x y hxy hin
    have hin' : ∀ q ∈ rest, q.1 < y → q.1 + q.2 ≤ y := fun q hq => hin q (mem_cons_of_mem r hq)
    rw [before_cons, before_cons]
    by_cases hx : r.1 < x
    · have hrest := ih h.2 hxy hin'
      rw [if_pos hx, if_pos (by omega)]
      omega
    · by_cases hy : r.1 < y
      · have hend := hin r mem_cons_self hy
        have hrest := h.2.before_add_le hend hin'
        rw [if_neg hx, if_pos hy]
        omega
      · have hzero : before rest y = 0 := by
          refine before_eq_zero ?_
          intro q hq
          have := h.2.le q hq
          omega
        rw [if_neg hy, hzero]
        omega

/-- Positions that no range covers keep their order. -/
theorem Apart.sub_before_lt {pos : Nat} (h : Apart pos ranges)
    (hpositive : ∀ r ∈ ranges, 0 < r.2) (hpos : pos ≤ x) (hxy : x < y)
    (hx : ∀ r ∈ ranges, ¬ (r.1 ≤ x ∧ x < r.1 + r.2))
    (hy : ∀ r ∈ ranges, ¬ (r.1 ≤ y ∧ y < r.1 + r.2)) :
    x - before ranges x < y - before ranges y := by
  have hnext : before ranges (x + 1) = before ranges x := by
    unfold before
    refine congrArg (fun l : List (Nat × Nat) => (l.map (·.2)).sum) (filter_congr ?_)
    intro r hr
    have := hx r hr
    have := hpositive r hr
    simp only [decide_eq_decide]
    omega
  have hstep := @Apart.before_le_add _ _ h (x + 1) y hxy fun r hr hry => by
    have := hy r hr
    omega
  have hle := h.before_add_le hpos fun r hr hrx => by
    have := hx r hr
    omega
  omega

/-- **Every place is that of a position which no range covers.** -/
theorem Apart.exists_kept : ∀ {pos : Nat}, Apart pos ranges →
    (∀ r ∈ ranges, 0 < r.2) → ∀ {place : Nat}, pos ≤ place →
      ∃ x, x = place + before ranges x ∧ ∀ r ∈ ranges, ¬ (r.1 ≤ x ∧ x < r.1 + r.2) := by
  induction ranges with
  | nil => exact fun _ _ place _ => ⟨place, rfl, forall_mem_nil _⟩
  | cons r rest ih =>
    intro pos h hpositive place hplace
    have hr := hpositive r mem_cons_self
    by_cases hle : r.1 ≤ place
    · obtain ⟨x, hx, hkept⟩ := @ih (r.1 + r.2) h.2
        (fun q hq => hpositive q (mem_cons_of_mem r hq)) (place + r.2) (by omega)
      refine ⟨x, ?_, List.forall_mem_cons.mpr ⟨by omega, hkept⟩⟩
      rw [before_cons, if_pos (by omega)]
      omega
    · have hafter : ∀ q ∈ r :: rest, place < q.1 := by
        refine List.forall_mem_cons.mpr ⟨by omega, ?_⟩
        intro q hq
        have := h.2.le q hq
        omega
      refine ⟨place, ?_, fun q hq => ?_⟩
      · rw [before_eq_zero fun q hq => Nat.le_of_lt (hafter q hq), Nat.add_zero]
      · have := hafter q hq
        omega

/-! ## 3. Cutting the ranges out -/

section Cut

variable {α : Type} (data : List α)

/-- What is left of the sequence from `pos` on. -/
def cut : Nat → List (Nat × Nat) → List α
  | pos, [] => data.drop pos
  | pos, r :: rest => (data.drop pos).take (r.1 - pos) ++ cut (r.1 + r.2) rest

/-- **A position that no range covers is found where it moved to.** -/
theorem drop_cut {ranges : List (Nat × Nat)} : ∀ {pos : Nat}, Apart pos ranges →
    (∀ r ∈ ranges, r.1 + r.2 ≤ data.length) → ∀ {x : Nat}, pos ≤ x →
      (∀ r ∈ ranges, r.1 < x → r.1 + r.2 ≤ x) →
      (cut data pos ranges).drop (x - pos - before ranges x)
        = cut data x (ranges.filter fun r => x ≤ r.1) := by
  induction ranges with
  | nil =>
    intro pos _ _ x hx _
    rw [cut, drop_drop, before_nil, Nat.sub_zero, filter_nil, cut]
    congr 1
    omega
  | cons r rest ih =>
    intro pos h hlen x hx hin
    have hr := hlen r mem_cons_self
    have hlen' : ∀ q ∈ rest, q.1 + q.2 ≤ data.length := fun q hq =>
      hlen q (mem_cons_of_mem r hq)
    have hpos := h.1
    rw [before_cons]
    by_cases hrx : r.1 < x
    · have hend := hin r mem_cons_self hrx
      have hrest := ih h.2 hlen' hend fun q hq => hin q (mem_cons_of_mem r hq)
      have hle := h.2.before_add_le hend fun q hq => hin q (mem_cons_of_mem r hq)
      have htake : ((data.drop pos).take (r.1 - pos)).length = r.1 - pos := by
        rw [length_take, length_drop]
        omega
      have hsplit : x - pos - (r.2 + before rest x)
          = (r.1 - pos) + (x - (r.1 + r.2) - before rest x) := by omega
      rw [if_pos hrx, filter_cons_of_neg (by simpa using hrx), cut, hsplit]
      nth_rewrite 1 [← htake]
      rw [drop_length_add_append, hrest]
    · have hzero : before rest x = 0 := by
        refine before_eq_zero ?_
        intro q hq
        have := h.2.le q hq
        omega
      have hall : (rest.filter fun q => x ≤ q.1) = rest := by
        refine filter_eq_self.mpr ?_
        intro q hq
        have := h.2.le q hq
        exact decide_eq_true (by omega)
      have htake : ((data.drop pos).take (r.1 - pos)).length = r.1 - pos := by
        rw [length_take, length_drop]
        omega
      rw [if_neg hrx, hzero, filter_cons_of_pos (by simpa using hrx), hall, cut, cut,
        Nat.add_zero, Nat.sub_zero, drop_append_of_le_length (by omega), drop_take,
        drop_drop]
      congr 2
      · omega
      · congr 1
        omega

/-- The sequence is as it was up to the first range. -/
theorem cut_eq_take_append {pos n : Nat} {ranges : List (Nat × Nat)} (h : Apart (pos + n) ranges) :
    cut data pos ranges = (data.drop pos).take n ++ cut data (pos + n) ranges := by
  cases ranges with
  | nil =>
    rw [cut, cut, ← drop_drop]
    exact (take_append_drop n (data.drop pos)).symm
  | cons r rest =>
    have hr := h.1
    have hsplit : r.1 - pos = n + (r.1 - (pos + n)) := by omega
    rw [cut, cut, hsplit, take_add, drop_drop, List.append_assoc]

end Cut

end Srs.Deletions
