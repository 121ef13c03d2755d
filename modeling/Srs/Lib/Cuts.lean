/-
# Cuts

Numbers in strict order cut a range into pieces, each from a cut up to the next one or to the end of
the range.  `cutsUpTo` is how a piece is found (`slice::partition_point`).
-/
import Mathlib.Data.UInt

namespace Srs.Cuts

open List Option Nat

/-- How many cuts are not behind `x`. -/
def cutsUpTo (cuts : List Nat) (x : Nat) : Nat := cuts.countP (· ≤ x)

/-- Where a piece ends. -/
def pieceStop (cuts : List Nat) (size i : Nat) : Nat := (cuts[i + 1]?).getD size

theorem cutsUpTo_eq_zero {cuts : List Nat} {x : Nat} (h : ∀ c ∈ cuts, x < c) :
    cutsUpTo cuts x = 0 := by
  refine countP_eq_zero.mpr fun c hc => ?_
  rw [decide_eq_true_iff]
  exact not_le.mpr (h c hc)

/-- The cuts that are not behind `x` are the first ones. -/
theorem getElem_le_iff : ∀ {cuts : List Nat} {x i : Nat}, cuts.Pairwise (· < ·) →
    ∀ hi : i < cuts.length, cuts[i] ≤ x ↔ i < cutsUpTo cuts x
  | c :: cuts, x, i, h, hi => by
    obtain ⟨hfirst, hrest⟩ := pairwise_cons.mp h
    by_cases hc : c ≤ x
    · rw [cutsUpTo, countP_cons_of_pos (by simpa using hc), ← cutsUpTo]
      cases i with
      | zero => exact iff_of_true hc (succ_pos _)
      | succ i =>
        rw [getElem_cons_succ, getElem_le_iff hrest (lt_of_succ_lt_succ hi)]
        exact succ_lt_succ_iff.symm
    · have hlt : x < c := not_le.mp hc
      have hnone : cutsUpTo (c :: cuts) x = 0 := by
        refine cutsUpTo_eq_zero fun d hd => ?_
        rcases mem_cons.mp hd with rfl | hd
        · exact hlt
        · exact hlt.trans (hfirst d hd)
      rw [hnone]
      refine iff_of_false (fun hle => ?_) (not_lt_zero _)
      cases i with
      | zero => exact hc hle
      | succ i =>
        have hd := hfirst _ (getElem_mem (lt_of_succ_lt_succ hi))
        exact absurd (hd.trans_le hle) (not_lt.mpr hlt.le)

theorem cutsUpTo_le_length (cuts : List Nat) (x : Nat) : cutsUpTo cuts x ≤ cuts.length :=
  countP_le_length

theorem pieceStop_le_size {cuts : List Nat} {size i : Nat} (hsize : ∀ c ∈ cuts, c ≤ size) :
    pieceStop cuts size i ≤ size := by
  rw [pieceStop]
  cases hnext : cuts[i + 1]? with
  | none => exact le_rfl
  | some c => exact hsize c (mem_of_getElem? hnext)

section

variable {cuts : List Nat} (hcuts : cuts.Pairwise (· < ·))
include hcuts

theorem cutsUpTo_getElem {i : Nat} (hi : i < cuts.length) : cutsUpTo cuts cuts[i] = i + 1 := by
  refine le_antisymm ?_ ((getElem_le_iff hcuts hi).mp le_rfl)
  by_contra hlt
  have hi' : i + 1 < cuts.length :=
    lt_of_lt_of_le (not_le.mp hlt) (cutsUpTo_le_length _ _)
  have hle := (getElem_le_iff hcuts hi').mpr (not_le.mp hlt)
  exact absurd (pairwise_iff_getElem.mp hcuts i (i + 1) (lt_of_succ_lt hi') hi'
    (lt_succ_self i)) (not_lt.mpr hle)

/-- A piece ends where the next cut is, at the latest. -/
theorem pieceStop_le {size i c : Nat} (hi : i < cuts.length) (hc : c ∈ cuts) (hlt : cuts[i] < c) :
    pieceStop cuts size i ≤ c := by
  obtain ⟨j, hj, rfl⟩ := mem_iff_getElem.mp hc
  have hij : i < j := by
    by_contra hle
    rcases lt_or_eq_of_le (not_lt.mp hle) with hji | rfl
    · exact absurd hlt (not_lt.mpr (pairwise_iff_getElem.mp hcuts j i hj hi hji).le)
    · exact absurd hlt (lt_irrefl _)
  have hnext : i + 1 < cuts.length := lt_of_le_of_lt hij hj
  rw [pieceStop, getElem?_eq_getElem hnext, getD_some]
  rcases lt_or_eq_of_le (succ_le_of_lt hij) with hlt' | heq
  · exact (pairwise_iff_getElem.mp hcuts (i + 1) j hnext hj hlt').le
  · exact le_of_eq (by simp only [← heq, succ_eq_add_one])

/-- The piece of a number is found by counting. -/
theorem cutsUpTo_of_mem_piece {size i x : Nat} (hi : i < cuts.length) (hstart : cuts[i] ≤ x)
    (hstop : x < pieceStop cuts size i) : cutsUpTo cuts x = i + 1 := by
  refine le_antisymm ?_ ((getElem_le_iff hcuts hi).mp hstart)
  by_contra hlt
  have hi' : i + 1 < cuts.length :=
    lt_of_lt_of_le (not_le.mp hlt) (cutsUpTo_le_length _ _)
  have hle := (getElem_le_iff hcuts hi').mpr (not_le.mp hlt)
  rw [pieceStop, getElem?_eq_getElem hi', getD_some] at hstop
  exact absurd hstop (not_lt.mpr hle)

/-- A number behind a cut is in some piece. -/
theorem exists_piece {size c x : Nat} (hc : c ∈ cuts) (hle : c ≤ x) (hsize : x < size) :
    ∃ i, ∃ hi : i < cuts.length, cutsUpTo cuts x = i + 1 ∧ cuts[i] ≤ x ∧
      x < pieceStop cuts size i := by
  obtain ⟨j, hj, rfl⟩ := mem_iff_getElem.mp hc
  have hpos := (getElem_le_iff hcuts hj).mp hle
  obtain ⟨i, hcount⟩ := Nat.exists_eq_add_one_of_ne_zero (Nat.ne_zero_of_lt hpos)
  have hi : i < cuts.length := by
    have := cutsUpTo_le_length cuts x
    omega
  refine ⟨i, hi, hcount, (getElem_le_iff hcuts hi).mpr (by omega), ?_⟩
  rw [pieceStop]
  cases hnext : cuts[i + 1]? with
  | none => exact hsize
  | some d =>
    obtain ⟨hi', rfl⟩ := List.getElem?_eq_some_iff.mp hnext
    rw [getD_some, ← not_le, getElem_le_iff hcuts hi']
    omega

end

end Srs.Cuts
