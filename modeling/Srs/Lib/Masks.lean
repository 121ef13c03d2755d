/-
# Masks of a part

Ranges of a whole mask some of its values.  What they mask of a part depends on them only through
`clipped`: the ranges inside the part, from its start.  A part of a part is clipped like a part of
the whole (`clipped_clipped`), so that is also all that a reader of the part needs to know.

The ranges are sorted and do not overlap.
-/
import Srs.Lib.Intervals

namespace Srs.Masks

open List Option

/-! ## 1. Ranges inside a part -/

/-- What lies of a range between `start` and `start + len`, from `start`. -/
def clip (start len : Nat) (range : Interval) : Option Interval :=
  if range.stop ≤ start ∨ range.start ≥ start + len then none
  else some ⟨max range.start start - start, min range.stop (start + len) - start⟩

def clipped (start len : Nat) (ranges : List Interval) : List Interval :=
  ranges.filterMap (clip start len)

variable {start len s n : Nat}

theorem le_of_clip {range clip' : Interval}
    (h : clip start len range = some clip') : clip'.start ≤ len ∧ clip'.stop ≤ len := by
  rw [clip] at h
  split at h
  · cases h
  · cases h
    dsimp only
    omega

variable {ranges : List Interval}

theorem le_of_mem_clipped {range : Interval}
    (h : range ∈ clipped start len ranges) : range.start ≤ len ∧ range.stop ≤ len := by
  obtain ⟨whole, -, hclip⟩ := mem_filterMap.mp h
  exact le_of_clip hclip

theorem clip_clip (hin : s + n ≤ len) (hn : 0 < n) (range : Interval) :
    (clip start len range).bind (clip s n) = clip (start + s) n range := by
  by_cases hout : range.stop ≤ start ∨ range.start ≥ start + len
  · rw [clip, if_pos hout, bind_none, clip, if_pos (by omega)]
  · rw [clip, if_neg hout, bind_some, clip, clip]
    dsimp only
    by_cases hpart : range.stop ≤ start + s ∨ range.start ≥ start + s + n
    · rw [if_pos (by omega), if_pos hpart]
    · rw [if_neg (by omega), if_neg hpart, some.injEq, Interval.mk.injEq]
      omega

/-- **A part of a part** is clipped like a part of the whole. -/
theorem clipped_clipped (hin : s + n ≤ len) (hn : 0 < n)
    (ranges : List Interval) :
    clipped s n (clipped start len ranges) = clipped (start + s) n ranges := by
  rw [clipped, clipped, filterMap_filterMap, clipped]
  exact filterMap_congr fun range _ => clip_clip hin hn range

/-- Some range covers the values from `s` up to `s + n`. -/
def Covers (ranges : List Interval) (s n : Nat) : Prop :=
  ∃ range ∈ ranges, range.start ≤ s ∧ s + n ≤ range.stop

instance (ranges : List Interval) (s n : Nat) : Decidable (Covers ranges s n) :=
  inferInstanceAs (Decidable (∃ range ∈ ranges, _))

theorem covers_clipped_iff (hin : s + n ≤ len) (hn : 0 < n) :
    Covers (clipped start len ranges) s n ↔ Covers ranges (start + s) n := by
  constructor
  · rintro ⟨part, hpart, hs, hstop⟩
    obtain ⟨range, hrange, hclip⟩ := mem_filterMap.mp hpart
    refine ⟨range, hrange, ?_⟩
    rw [clip] at hclip
    split at hclip
    · cases hclip
    · cases hclip
      dsimp only at hs hstop
      omega
  · rintro ⟨range, hrange, hs, hstop⟩
    have hin' : ¬ (range.stop ≤ start ∨ range.start ≥ start + len) := by omega
    refine ⟨⟨max range.start start - start, min range.stop (start + len) - start⟩,
      mem_filterMap.mpr ⟨range, hrange, by rw [clip, if_neg hin']⟩, ?_⟩
    dsimp only
    omega

/-! ## 2. Masked values -/

section

variable {α : Type} [Zero α]

/-- The values from `position` on, with zeros in the ranges. -/
def maskFrom (values : List α) : Nat → List Interval → List α
  | position, [] => values.drop position
  | position, range :: ranges =>
    (values.take range.start).drop position ++ replicate (range.stop - range.start) 0
      ++ maskFrom values range.stop ranges

/-- The values of a part that starts at `start`. -/
def mask (values : List α) (start : Nat) (ranges : List Interval) : List α :=
  maskFrom values 0 (clipped start values.length ranges)

theorem maskFrom_nil : ∀ {ranges : List Interval} {position : Nat},
    (∀ range ∈ ranges, range.stop = 0) → maskFrom ([] : List α) position ranges = []
  | [], position, _ => drop_nil
  | range :: ranges, position, h => by
    rw [maskFrom, take_nil, drop_nil, h range mem_cons_self, Nat.zero_sub,
      replicate_zero, maskFrom_nil fun r hr => h r (mem_cons_of_mem _ hr)]
    rfl

/-- Nothing is left of no values. -/
@[simp] theorem mask_nil (start : Nat) (ranges : List Interval) :
    mask ([] : List α) start ranges = [] := by
  refine maskFrom_nil fun range hrange => ?_
  exact Nat.le_zero.mp (le_of_mem_clipped hrange).2

/-- **The mask of a part of a part** is that of the part of the whole. -/
theorem mask_clipped {values : List α} {start len s : Nat} (hin : s + values.length ≤ len)
    (ranges : List Interval) :
    mask values s (clipped start len ranges) = mask values (start + s) ranges := by
  cases values with
  | nil => rw [mask_nil, mask_nil]
  | cons v values =>
    rw [mask, mask, clipped_clipped hin (Nat.succ_pos _)]

end

end Srs.Masks
