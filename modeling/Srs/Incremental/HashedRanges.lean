/-
# A file hashed without its ranges

What is patched in a file is left out of its hash.  The ranges are sorted and checked once
(`normalizePatchRanges`), and a part of the file, a member of an archive or a section, is hashed
with the ranges clipped to it while a position walks over its bytes (`updateHashWithRanges`).  The
walk only holds together because the ranges that are left do not start before the position.

A hasher is what it was fed.
-/
import Srs.Lib.Bytes
import Srs.Lib.Checked
import Srs.Lib.Intervals
import Srs.Lib.SortDedup

namespace Srs.Incremental

open Checked List

/-! ## 1. The code -/

/-- `const ZEROES: [u8; 4096]` -/
def ZEROES : Bytes := replicate 4096 0

/-- `update_hash_with_zeroes`. -/
def updateHashWithZeroes (hasher : Bytes) (len : Nat) : Bytes :=
  if 0 < len then
    let chunkLen := min len ZEROES.length
    updateHashWithZeroes (hasher ++ ZEROES.take chunkLen) (len - chunkLen)
  else hasher
termination_by len
decreasing_by
  rw [ZEROES, length_replicate]
  omega

/-- The loop body: a range, the hasher and the position. -/
def updateHashWithRange (bytes : Bytes) (dataOffset : Nat) (state : Bytes × Nat)
    (range : Interval) : Except Violation (Bytes × Nat) :=
  let dataEnd := dataOffset + bytes.length
  if range.stop ≤ dataOffset ∨ range.start ≥ dataEnd then .ok state
  else do
    let start ← sub (max range.start dataOffset) dataOffset
    let stop ← sub (min range.stop dataEnd) dataOffset
    let piece ← Checked.range bytes state.2 start
    let zeroes ← sub stop start
    .ok (updateHashWithZeroes (state.1 ++ piece) zeroes, stop)

/-- `update_hash_with_ranges`. -/
def updateHashWithRanges (hasher bytes : Bytes) (dataOffset : Nat) (ranges : List Interval) :
    Except Violation Bytes := do
  let state ← ranges.foldlM (updateHashWithRange bytes dataOffset) (hasher, 0)
  let rest ← Checked.range bytes state.2 bytes.length
  .ok (state.1 ++ rest)

/-- The loop over the sorted ranges, from the end of the last one. -/
def acceptsRanges (bytesLen : Nat) : Nat → List Interval → Bool
  | _, [] => true
  | previousEnd, r :: rest =>
    if r.start > r.stop ∨ r.stop > bytesLen ∨ r.start < previousEnd then false
    else acceptsRanges bytesLen r.stop rest

/-- `normalize_patch_ranges`. -/
def normalizePatchRanges (ranges : List Interval) (bytesLen : Nat) : Option (List Interval) :=
  let ranges := sortedByKey (·.start) ranges
  if acceptsRanges bytesLen 0 ranges then if ranges.isEmpty then none else some ranges else none

/-! ## 2. What is hashed -/

/-- Some range covers the byte. -/
def Covered (ranges : List Interval) (n : Nat) : Prop := ∃ range ∈ ranges, range.Contains n

instance (ranges : List Interval) (n : Nat) : Decidable (Covered ranges n) :=
  inferInstanceAs (Decidable (∃ range ∈ ranges, _))

/-- The bytes from `dataOffset` on, with zeros for those that are covered. -/
def zeroed (ranges : List Interval) (dataOffset : Nat) (bytes : Bytes) : Bytes :=
  bytes.mapIdx fun i b => if Covered ranges (dataOffset + i) then 0 else b

/-- Every range is in the file and stops before the next one starts. -/
structure Normal (bytesLen : Nat) (ranges : List Interval) : Prop where
  ordered : ∀ range ∈ ranges, range.start ≤ range.stop
  inside : ∀ range ∈ ranges, range.stop ≤ bytesLen
  apart : ranges.Pairwise fun a b => a.stop ≤ b.start

variable {ranges rest : List Interval} {bytes hasher : Bytes} {dataOffset position : Nat}

@[simp] theorem covered_nil (n : Nat) : ¬ Covered [] n := by simp [Covered]

variable {range : Interval}

@[simp] theorem covered_cons {n : Nat} :
    Covered (range :: rest) n ↔ range.Contains n ∨ Covered rest n := by simp [Covered]

@[simp] theorem length_zeroed : (zeroed ranges dataOffset bytes).length = bytes.length :=
  length_mapIdx

theorem getElem?_zeroed (i : Nat) : (zeroed ranges dataOffset bytes)[i]? =
    bytes[i]?.map fun b => if Covered ranges (dataOffset + i) then 0 else b :=
  getElem?_mapIdx

theorem updateHashWithZeroes_eq (len : Nat) :
    ∀ hasher, updateHashWithZeroes hasher len = hasher ++ replicate len 0 := by
  induction len using Nat.strong_induction_on with
  | _ len ih =>
    intro hasher
    rw [updateHashWithZeroes]
    split
    · rename_i hpos
      dsimp only
      have hlen : ZEROES.length = 4096 := length_replicate
      rw [hlen, ih _ (by omega), ZEROES, take_replicate, append_assoc, replicate_append_replicate]
      congr 2
      omega
    · rw [show len = 0 by omega, replicate_zero, append_nil]

/-- What a range that meets the window leaves of it: the bytes up to the range, its zeros, and what
is after it. -/
theorem drop_zeroed_cons {start stop : Nat}
    (hstart : start = max range.start dataOffset - dataOffset)
    (hstop : stop = min range.stop (dataOffset + bytes.length) - dataOffset)
    (hposition : position ≤ start) (hle : start ≤ stop) (hlen : stop ≤ bytes.length)
    (hmeets : dataOffset < range.stop)
    (hafter : ∀ later ∈ rest, range.stop ≤ later.start) :
    (zeroed (range :: rest) dataOffset bytes).drop position =
      (bytes.drop position).take (start - position) ++ replicate (stop - start) 0
        ++ (zeroed rest dataOffset bytes).drop stop := by
  have hrest : ∀ i, dataOffset + i < range.stop → ¬ Covered rest (dataOffset + i) := by
    rintro i hi ⟨later, hlater, hcontains⟩
    have := hafter later hlater
    have := hcontains.1
    omega
  have hfirst : ((bytes.drop position).take (start - position)).length = start - position := by
    rw [length_take, length_drop]
    omega
  refine ext_getElem? fun i => ?_
  rw [getElem?_drop, getElem?_zeroed]
  by_cases hbefore : i < start - position
  · -- before the range
    rw [append_assoc, getElem?_append_left (by omega), getElem?_take_of_lt hbefore, getElem?_drop]
    have hnot : ¬ Covered (range :: rest) (dataOffset + (position + i)) := by
      rw [covered_cons, Interval.Contains, not_or]
      exact ⟨by omega, hrest _ (by omega)⟩
    simp only [if_neg hnot, Option.map_id']
  · by_cases hinside : i < stop - position
    · -- in the range
      have hlt : position + i < bytes.length := by omega
      have hcovered : Covered (range :: rest) (dataOffset + (position + i)) :=
        covered_cons.mpr (Or.inl ⟨by omega, by omega⟩)
      rw [getElem?_append_left (by rw [length_append, hfirst, length_replicate]; omega),
        getElem?_append_right (by omega), getElem?_replicate_of_lt (by omega),
        getElem?_eq_getElem hlt, Option.map_some, if_pos hcovered]
    · -- after the range
      have hlengths : ((bytes.drop position).take (start - position)
          ++ replicate (stop - start) (0 : UInt8)).length = stop - position := by
        rw [length_append, hfirst, length_replicate]
        omega
      rw [getElem?_append_right (by omega), hlengths, getElem?_drop, getElem?_zeroed,
        show stop + (i - (stop - position)) = position + i by omega]
      by_cases hlt : position + i < bytes.length
      · have hnot : ¬ range.Contains (dataOffset + (position + i)) := by
          rw [Interval.Contains]
          omega
        simp only [covered_cons, hnot, false_or]
      · rw [getElem?_eq_none (by omega)]
        rfl

/-- The loop from a position that no range starts before. -/
theorem foldlM_updateHashWithRange : ∀ {ranges : List Interval} {hasher : Bytes} {position : Nat},
    (∀ r ∈ ranges, r.start ≤ r.stop) →
      ranges.Pairwise (fun a b => a.stop ≤ b.start) →
        (∀ r ∈ ranges, position ≤ max r.start dataOffset - dataOffset) →
          position ≤ bytes.length →
            Holds (ranges.foldlM (updateHashWithRange bytes dataOffset) (hasher, position))
              fun state => state.2 ≤ bytes.length ∧ state.1 ++ bytes.drop state.2
                = hasher ++ (zeroed ranges dataOffset bytes).drop position
  | [], hasher, position, _, _, _, hposition => by
    have hzeroed : zeroed [] dataOffset bytes = bytes :=
      ext_getElem? fun i => by simp [getElem?_zeroed]
    rw [foldlM_nil, hzeroed]
    exact ⟨_, rfl, hposition, rfl⟩
  | r :: rest, hasher, position, hordered, hapart, hnext, hposition => by
    obtain ⟨hafter, hapart⟩ := pairwise_cons.mp hapart
    have hrange := hordered r mem_cons_self
    have hstart := hnext r mem_cons_self
    have hordered' := fun later hlater => hordered later (mem_cons_of_mem r hlater)
    rw [foldlM_cons, holds_bind, updateHashWithRange]
    dsimp only
    split
    · rename_i hout
      rw [holds_ok]
      have hzeroed : zeroed (r :: rest) dataOffset bytes = zeroed rest dataOffset bytes := by
        refine ext_getElem? fun i => ?_
        rw [getElem?_zeroed, getElem?_zeroed]
        by_cases hlt : i < bytes.length
        · have hnot : ¬ r.Contains (dataOffset + i) := by
            rw [Interval.Contains]
            omega
          simp only [covered_cons, hnot, false_or]
        · rw [getElem?_eq_none (by omega)]
          rfl
      rw [hzeroed]
      exact foldlM_updateHashWithRange hordered' hapart
        (fun later hlater => hnext later (mem_cons_of_mem r hlater)) hposition
    · rename_i hin
      simp only [holds_bind, holds_sub, holds_range, holds_ok]
      refine ⟨by omega, by omega, by omega, by omega, by omega, ?_⟩
      obtain ⟨state, hstate, hle, hfed⟩ := @foldlM_updateHashWithRange rest
        (updateHashWithZeroes (hasher ++ (bytes.drop position).take
          (max r.start dataOffset - dataOffset - position))
          (min r.stop (dataOffset + bytes.length) - dataOffset
            - (max r.start dataOffset - dataOffset)))
        (min r.stop (dataOffset + bytes.length) - dataOffset) hordered' hapart
        (fun later hlater => by have := hafter later hlater; omega) (by omega)
      refine ⟨state, hstate, hle, ?_⟩
      rw [hfed, updateHashWithZeroes_eq, drop_zeroed_cons rfl rfl hstart (by omega) (by omega)
        (by omega) hafter]
      simp only [append_assoc]

/-- **What is hashed** are the bytes with zeros in the ranges. -/
theorem updateHashWithRanges_eq {bytesLen : Nat} (h : Normal bytesLen ranges) :
    updateHashWithRanges hasher bytes dataOffset ranges
      = .ok (hasher ++ zeroed ranges dataOffset bytes) := by
  have hloop := @foldlM_updateHashWithRange bytes dataOffset ranges hasher 0 h.ordered h.apart
    (fun _ _ => Nat.zero_le _) (Nat.zero_le _)
  obtain ⟨state, hstate, hle, hfed⟩ := hloop
  have hrest : Holds (Checked.range bytes state.2 bytes.length) (· = bytes.drop state.2) := by
    rw [holds_range]
    exact ⟨hle, Nat.le_refl _, take_of_length_le (by rw [length_drop])⟩
  obtain ⟨piece, hpiece, rfl⟩ := hrest
  rw [updateHashWithRanges, hstate]
  change (Checked.range bytes state.2 bytes.length >>= fun rest => .ok (state.1 ++ rest)) = _
  rw [hpiece]
  exact congrArg Except.ok hfed

/-! ## 3. Which ranges are accepted -/

/-- Two ranges share a byte, where an empty one counts inside another; or an empty range comes after
one with bytes that starts where it is. -/
def Clash (a b : Interval) : Prop :=
  a.start < b.stop ∧ b.start < a.stop ∨
    a.start = b.start ∧ a.start < a.stop ∧ b.start = b.stop

theorem acceptsRanges_iff {bytesLen : Nat} : ∀ {ranges : List Interval} {previousEnd : Nat},
    acceptsRanges bytesLen previousEnd ranges = true ↔
      Normal bytesLen ranges ∧ ∀ r ∈ ranges, previousEnd ≤ r.start
  | [], previousEnd => by
    simp only [acceptsRanges, not_mem_nil, true_iff]
    exact ⟨⟨by simp, by simp, .nil⟩, by simp⟩
  | r :: rest, previousEnd => by
    rw [acceptsRanges]
    split
    · rename_i hrefused
      simp only [Bool.false_eq_true, false_iff, not_and]
      intro hnormal hall
      have := hnormal.ordered r mem_cons_self
      have := hnormal.inside r mem_cons_self
      have := hall r mem_cons_self
      omega
    · rename_i haccepted
      rw [acceptsRanges_iff]
      constructor
      · rintro ⟨hnormal, hall⟩
        refine ⟨⟨?_, ?_, pairwise_cons.mpr ⟨hall, hnormal.apart⟩⟩, ?_⟩
        · exact forall_mem_cons.mpr ⟨by omega, hnormal.ordered⟩
        · exact forall_mem_cons.mpr ⟨by omega, hnormal.inside⟩
        · refine forall_mem_cons.mpr ⟨by omega, fun later hlater => ?_⟩
          have := hall later hlater
          omega
      · rintro ⟨hnormal, -⟩
        obtain ⟨hafter, hapart⟩ := pairwise_cons.mp hnormal.apart
        exact ⟨⟨fun a ha => hnormal.ordered a (mem_cons_of_mem r ha),
          fun a ha => hnormal.inside a (mem_cons_of_mem r ha), hapart⟩, hafter⟩

variable {bytesLen : Nat} {normalized : List Interval}

theorem normalizePatchRanges_eq_some (h : normalizePatchRanges ranges bytesLen = some normalized) :
    Normal bytesLen normalized ∧ normalized.Perm ranges := by
  rw [normalizePatchRanges] at h
  split at h
  · rename_i haccepted
    split at h
    · cases h
    · cases h
      exact ⟨(acceptsRanges_iff.mp haccepted).1, sortedByKey_perm _ _⟩
  · cases h

/-- **Which lists are refused.** -/
theorem normalizePatchRanges_eq_none : normalizePatchRanges ranges bytesLen = none ↔
    ranges = [] ∨ (∃ r ∈ ranges, r.stop < r.start ∨ bytesLen < r.stop) ∨
      ¬ ranges.Pairwise fun a b => ¬ Clash a b := by
  have hperm := sortedByKey_perm (·.start) ranges
  have hmem : ∀ r, r ∈ sortedByKey (·.start) ranges ↔ r ∈ ranges := fun _ => hperm.mem_iff
  have hclash : (sortedByKey (·.start) ranges).Pairwise (fun a b => ¬ Clash a b) ↔
      ranges.Pairwise fun a b => ¬ Clash a b :=
    pairwise_sortedByKey_iff fun a b hne h => by simp only [Clash] at h ⊢; omega
  have haccepts : acceptsRanges bytesLen 0 (sortedByKey (·.start) ranges) = true ↔
      (∀ r ∈ ranges, r.start ≤ r.stop ∧ r.stop ≤ bytesLen) ∧
        ranges.Pairwise fun a b => ¬ Clash a b := by
    rw [acceptsRanges_iff, ← hclash]
    constructor
    · rintro ⟨hnormal, -⟩
      refine ⟨fun r hr => ⟨hnormal.ordered r ((hmem r).mpr hr), hnormal.inside r ((hmem r).mpr hr)⟩,
        hnormal.apart.imp fun hapart => ?_⟩
      simp only [Clash]
      omega
    · rintro ⟨hall, hpairwise⟩
      refine ⟨⟨fun r hr => (hall r ((hmem r).mp hr)).1, fun r hr => (hall r ((hmem r).mp hr)).2, ?_⟩,
        fun _ _ => Nat.zero_le _⟩
      refine ((sortedByKey_pairwise _ ranges).and hpairwise).imp_of_mem ?_
      rintro a b ha hb ⟨hle, hnot⟩
      have ha := hall a ((hmem a).mp ha)
      have hb := hall b ((hmem b).mp hb)
      simp only [Clash] at hnot
      omega
  have hempty : (sortedByKey (·.start) ranges).isEmpty = true ↔ ranges = [] := by
    rw [List.isEmpty_iff, ← length_eq_zero_iff, hperm.length_eq, length_eq_zero_iff]
  rw [normalizePatchRanges]
  constructor
  · intro h
    split at h
    · split at h
      · rename_i hnil
        exact Or.inl (hempty.mp hnil)
      · cases h
    · rename_i hrefused
      rw [haccepts, not_and_or] at hrefused
      refine Or.inr (hrefused.imp_left fun hbad => ?_)
      push Not at hbad
      obtain ⟨r, hr, hbad⟩ := hbad
      exact ⟨r, hr, by omega⟩
  · rintro (hnil | ⟨r, hr, hbad⟩ | hbad)
    · rw [if_pos (hempty.mpr hnil), ite_self]
    · rw [if_neg fun h => by have := (haccepts.mp h).1 r hr; omega]
    · rw [if_neg fun h => hbad (haccepts.mp h).2]

theorem zeroed_perm {other : List Interval} (h : ranges.Perm other) :
    zeroed ranges dataOffset bytes = zeroed other dataOffset bytes := by
  have hcovered : ∀ n, Covered ranges n ↔ Covered other n := fun n => by
    simp only [Covered, h.mem_iff]
  simp only [zeroed, hcovered]

/-- Two windows agree after the ranges are zeroed if they did outside. -/
theorem zeroed_eq_iff {others : List Interval} {otherBytes : Bytes} {otherOffset : Nat}
    (hlen : bytes.length = otherBytes.length)
    (hcovered : ∀ i < bytes.length,
      Covered ranges (dataOffset + i) ↔ Covered others (otherOffset + i)) :
    zeroed ranges dataOffset bytes = zeroed others otherOffset otherBytes ↔
      ∀ i < bytes.length, ¬ Covered ranges (dataOffset + i) → bytes[i]? = otherBytes[i]? := by
  constructor
  · intro h i hi hnot
    have hat := congrArg (·[i]?) h
    simp only [getElem?_zeroed, ← hcovered i hi, if_neg hnot] at hat
    simpa using hat
  · intro h
    refine ext_getElem? fun i => ?_
    rw [getElem?_zeroed, getElem?_zeroed]
    by_cases hi : i < bytes.length
    · simp only [← hcovered i hi]
      split
      · rw [getElem?_eq_getElem hi, getElem?_eq_getElem (hlen ▸ hi)]
        rfl
      · rename_i hnot
        rw [h i hi hnot]
    · rw [getElem?_eq_none (by omega), getElem?_eq_none (by omega)]
      rfl

/-- **Hashing without ranges is hashing with zeros in them.**  A list of ranges is refused if it is
empty or has a range that is inverted or out of bounds or two that clash.  With the ranges that are
left of any other list, the bytes of any window are hashed with zeros in the ranges; so two windows
whose covered bytes correspond are hashed alike if and only if they agree everywhere else. -/
theorem hashing_with_ranges_is_hashing_zeroed :
    (∀ ranges bytesLen, normalizePatchRanges ranges bytesLen = none ↔
      ranges = [] ∨ (∃ r ∈ ranges, r.stop < r.start ∨ bytesLen < r.stop) ∨
        ¬ ranges.Pairwise fun a b => ¬ Clash a b) ∧
    (∀ ranges bytesLen normalized, normalizePatchRanges ranges bytesLen = some normalized →
      ∀ hasher bytes dataOffset, updateHashWithRanges hasher bytes dataOffset normalized
        = .ok (hasher ++ zeroed ranges dataOffset bytes)) ∧
    ∀ ranges bytesLen normalized others othersLen otherNormalized,
      normalizePatchRanges ranges bytesLen = some normalized →
      normalizePatchRanges others othersLen = some otherNormalized →
      ∀ hasher (bytes otherBytes : Bytes) dataOffset otherOffset,
        bytes.length = otherBytes.length →
        (∀ i < bytes.length, Covered ranges (dataOffset + i) ↔ Covered others (otherOffset + i)) →
        (updateHashWithRanges hasher bytes dataOffset normalized
            = updateHashWithRanges hasher otherBytes otherOffset otherNormalized ↔
          ∀ i < bytes.length, ¬ Covered ranges (dataOffset + i) → bytes[i]? = otherBytes[i]?) := by
  have hhash : ∀ {ranges bytesLen normalized}, normalizePatchRanges ranges bytesLen = some normalized →
      ∀ hasher bytes dataOffset, updateHashWithRanges hasher bytes dataOffset normalized
        = .ok (hasher ++ zeroed ranges dataOffset bytes) := by
    intro ranges bytesLen normalized h hasher bytes dataOffset
    obtain ⟨hnormal, hperm⟩ := normalizePatchRanges_eq_some h
    rw [updateHashWithRanges_eq hnormal, zeroed_perm hperm]
  refine ⟨fun _ _ => normalizePatchRanges_eq_none, fun _ _ _ h => hhash h, ?_⟩
  intro ranges bytesLen normalized others othersLen otherNormalized h hother hasher bytes otherBytes
    dataOffset otherOffset hlen hcovered
  rw [hhash h, hhash hother, Except.ok.injEq, append_cancel_left_eq]
  exact zeroed_eq_iff hlen hcovered

/-- A window that starts inside a range, and an empty range in it. -/
theorem hashing_with_ranges_is_hashing_zeroed_window :
    updateHashWithRanges [] [5, 6, 7, 8] 2 [⟨0, 3⟩, ⟨4, 4⟩, ⟨5, 9⟩] = .ok [0, 6, 7, 0] :=
  hashing_with_ranges_is_hashing_zeroed.2.1 [⟨5, 9⟩, ⟨4, 4⟩, ⟨0, 3⟩] 9 _ (by decide) [] _ 2

/-- An empty range is refused after a range that starts where it is, and accepted before it. -/
theorem empty_range_is_refused :
    (∀ r ∈ [(⟨3, 5⟩ : Interval), ⟨3, 3⟩], r.start ≤ r.stop ∧ r.stop ≤ 10) ∧
      Interval.Apart ⟨3, 5⟩ ⟨3, 3⟩ ∧ normalizePatchRanges [⟨3, 5⟩, ⟨3, 3⟩] 10 = none ∧
      normalizePatchRanges [⟨3, 3⟩, ⟨3, 5⟩] 10 = some [⟨3, 3⟩, ⟨3, 5⟩] := by
  decide

end Srs.Incremental
