/-
# Reserved output ranges

The linker leaves room in the output for code that later links may add.  `incremental.rs` keeps
the free room as a list of ranges and hands pieces out with `allocate_reserved_range`: the
lowest range of the right section and alignment that is large enough loses its first bytes.

`validate_reserved_ranges` checks a list by sorting it and comparing neighbours; `ValidRanges`
is what that means (`validateReservedRanges_iff`).  `allocateReservedRange_cases` says once what
one call can do, and `Accounted` is the invariant of a run: the ranges that are left and the
pieces handed out cover exactly the bytes that were reserved at the start, each once.  That no
two of them overlap, and that the list stays valid, follow from this count alone.

A call takes the list by mutable reference, so the model returns the list it leaves together
with its result.
-/
import Srs.Alignment
import Srs.Lib.Intervals
import Srs.Lib.SortDedup

namespace Srs.Incremental

open List Srs.Interval

/-! ## 1. The code -/

structure ReservedRangeRecord where
  outputSectionId : UInt32
  alignmentExponent : UInt8
  outputOffset : UInt64
  size : UInt64
  deriving DecidableEq, Ord

structure ReservedRangeAllocation where
  outputOffset : UInt64
  size : UInt64
  deriving DecidableEq

/-- The loop of `validate_reserved_ranges` over the sorted ranges. -/
def checkReservedRanges : UInt64 → List ReservedRangeRecord → Result Unit
  | _, [] => .ok ()
  | previousEnd, range :: rest => do
    let alignment ← withContext (Alignment.fromExponent range.alignmentExponent)
      "Invalid incremental reserve alignment"
    failIf (range.size = 0 ∨ range.outputOffset &&& alignment.mask ≠ 0
        ∨ range.size &&& alignment.mask ≠ 0)
      "Invalid incremental reserve range"
    failIf (range.outputOffset < previousEnd) "Incremental reserve ranges overlap"
    let nextEnd ← context (checkedAdd range.outputOffset range.size)
      "Incremental reserve range overflow"
    checkReservedRanges nextEnd rest

/-- `validate_reserved_ranges`. -/
def validateReservedRanges (ranges : List ReservedRangeRecord) : Result Unit :=
  checkReservedRanges 0 (sortedByKey (fun range => range.outputOffset.toNat) ranges)

/-- `Iterator::min_by_key`: the first of the elements with the least key. -/
def minByKey {α : Type} (key : α → Nat) : List α → Option α
  | [] => none
  | a :: rest => match minByKey key rest with
    | none => some a
    | some b => if key b < key a then some b else some a

/-- `Vec::swap_remove`: the last element takes the place of the one removed. -/
def swapRemove {α : Type} (l : List α) (index : Nat) : List α :=
  match l.getLast? with
  | none => l
  | some last => (l.set index last).dropLast

/-- A range that can serve a request, with what the request takes of it. -/
structure ReserveCandidate where
  rangeIndex : Nat
  allocationSize : UInt64
  outputOffset : UInt64

/-- The requested size, rounded up to the alignment of the range. -/
def allocationSize (alignment : Alignment) (size : UInt64) : Option UInt64 :=
  (checkedAdd size alignment.mask).map alignment.alignDown

/-- The `filter_map` of `allocate_reserved_range`. -/
def reserveCandidate (outputSectionId : UInt32) (alignmentExponent : UInt8) (size : UInt64)
    (entry : ReservedRangeRecord × Nat) : Option ReserveCandidate :=
  let (range, rangeIndex) := entry
  if range.outputSectionId ≠ outputSectionId ∨ range.alignmentExponent ≠ alignmentExponent then
    none
  else do
    let alignment ← (Alignment.fromExponent range.alignmentExponent).toOption
    let allocationSize ← allocationSize alignment size
    if range.size ≥ allocationSize then
      some { rangeIndex, allocationSize, outputOffset := range.outputOffset }
    else none

/-- `allocate_reserved_range`. -/
def allocateReservedRange (ranges : List ReservedRangeRecord) (outputSectionId : UInt32)
    (alignmentExponent : UInt8) (size : UInt64) :
    List ReservedRangeRecord × Result (Option ReservedRangeAllocation) :=
  if size = 0 then (ranges, .ok none)
  else match validateReservedRanges ranges with
  | .error e => (ranges, .error e)
  | .ok () =>
    match withContext (Alignment.fromExponent alignmentExponent)
      "Invalid incremental reserve allocation alignment" with
    | .error e => (ranges, .error e)
    | .ok _ =>
      match minByKey (fun candidate => candidate.outputOffset.toNat) (ranges.zipIdx.filterMap
        (reserveCandidate outputSectionId alignmentExponent size)) with
      | none => (ranges, .ok none)
      | some candidate =>
        -- `reserved_ranges[range_index]`, which cannot be out of bounds
        match ranges[candidate.rangeIndex]? with
        | none => (ranges, .error "index out of bounds")
        | some range =>
          match checkedAdd range.outputOffset candidate.allocationSize with
          | none => (ranges, .error "Incremental reserve allocation offset overflow")
          | some outputOffset =>
            let rest := { range with outputOffset, size := range.size - candidate.allocationSize }
            let ranges := ranges.set candidate.rangeIndex rest
            let ranges := if rest.size = 0 then swapRemove ranges candidate.rangeIndex else ranges
            let ranges := sorted ranges
            match validateReservedRanges ranges with
            | .error e => (ranges, .error e)
            | .ok () =>
              (ranges, .ok (some { outputOffset := range.outputOffset
                                   size := candidate.allocationSize }))

/-! ## 2. Valid lists -/

namespace ReservedRangeRecord

/-- The bytes of the output that a range reserves. -/
def interval (r : ReservedRangeRecord) : Interval :=
  ⟨r.outputOffset.toNat, r.outputOffset.toNat + r.size.toNat⟩

/-- What is checked of each range alone. -/
structure WellFormed (r : ReservedRangeRecord) : Prop where
  supported : r.alignmentExponent.toNat ≤ maxAlignmentExponent.toNat
  size_pos : 0 < r.size.toNat
  dvd_offset : 2 ^ r.alignmentExponent.toNat ∣ r.outputOffset.toNat
  dvd_size : 2 ^ r.alignmentExponent.toNat ∣ r.size.toNat
  end_lt : r.outputOffset.toNat + r.size.toNat < 2 ^ 64

theorem WellFormed.nonempty {r : ReservedRangeRecord} (h : r.WellFormed) :
    r.interval.Nonempty := by
  have := h.size_pos
  simp only [Interval.Nonempty, interval]
  omega

end ReservedRangeRecord

def ReservedRangeAllocation.interval (a : ReservedRangeAllocation) : Interval :=
  ⟨a.outputOffset.toNat, a.outputOffset.toNat + a.size.toNat⟩

/-- Well-formed ranges, no two of which share a byte. -/
structure ValidRanges (ranges : List ReservedRangeRecord) : Prop where
  wellFormed : ∀ r ∈ ranges, r.WellFormed
  apart : (ranges.map ReservedRangeRecord.interval).Pairwise Apart

theorem uint64_eq_zero_iff {v : UInt64} : v = 0 ↔ v.toNat = 0 := by
  rw [← UInt64.toNat_inj, UInt64.toNat_zero]

variable {range : ReservedRangeRecord} {ranges : List ReservedRangeRecord} {α : Type} {l : List α}
  {request : AllocationRequest} {left others : List ReservedRangeRecord}
  {allocation : ReservedRangeAllocation}

/-- The checks of one turn of the loop, and the end that it hands on. -/
theorem checkReservedRanges_cons {previousEnd : UInt64} {rest : List ReservedRangeRecord} :
    checkReservedRanges previousEnd (range :: rest) = .ok () ↔
      range.WellFormed ∧ previousEnd.toNat ≤ range.interval.start ∧
        ∃ nextEnd : UInt64, nextEnd.toNat = range.interval.stop ∧
          checkReservedRanges nextEnd rest = .ok () := by
  simp only [checkReservedRanges, bind_eq_ok, withContext_eq_ok, Alignment.fromExponent_eq_ok,
    failIf_eq_ok, context_eq_ok, checkedAdd_eq_some]
  constructor
  · rintro ⟨alignment, halign, -, hrange, -, hoverlap, nextEnd, hend, hrest⟩
    rw [not_or, not_or, not_not, not_not, Alignment.and_mask_eq_zero,
      Alignment.and_mask_eq_zero, halign, uint64_eq_zero_iff] at hrange
    have hlt := nextEnd.toNat_lt
    refine ⟨⟨?_, by omega, hrange.2.1, hrange.2.2, by omega⟩, ?_, nextEnd, hend.symm, hrest⟩
    · rw [← halign]
      exact alignment.supported
    · rw [UInt64.lt_iff_toNat_lt, Nat.not_lt] at hoverlap
      exact hoverlap
  · rintro ⟨h, hprev, nextEnd, hend, hrest⟩
    have hpos := h.size_pos
    refine ⟨⟨range.alignmentExponent, h.supported⟩, rfl, (), ?_, (), ?_, nextEnd, hend.symm,
      hrest⟩
    · rw [not_or, not_or, not_not, not_not, Alignment.and_mask_eq_zero,
        Alignment.and_mask_eq_zero, uint64_eq_zero_iff]
      exact ⟨by omega, h.dvd_offset, h.dvd_size⟩
    · rw [UInt64.lt_iff_toNat_lt, Nat.not_lt]
      exact hprev

/-- The loop accepts a list when its ranges are well formed and each starts where the one
before it ended, or later. -/
theorem checkReservedRanges_iff :
    ∀ {previousEnd : UInt64}, checkReservedRanges previousEnd ranges = .ok () ↔
      (∀ r ∈ ranges, r.WellFormed) ∧
        (∀ r ∈ ranges.head?, previousEnd.toNat ≤ r.interval.start) ∧
        (ranges.map ReservedRangeRecord.interval).IsChain fun a b => a.stop ≤ b.start := by
  induction ranges with
  | nil => simp [checkReservedRanges]
  | cons range rest ih =>
    intro previousEnd
    rw [checkReservedRanges_cons, map_cons, isChain_cons]
    constructor
    · rintro ⟨hrange, hprev, nextEnd, hend, hrest⟩
      obtain ⟨hall, hhead, hchain⟩ := ih.mp hrest
      refine ⟨?_, by simpa using hprev, ?_, hchain⟩
      · intro r hr
        rcases mem_cons.mp hr with rfl | hr
        · exact hrange
        · exact hall r hr
      · intro y hy
        rw [head?_map, Option.mem_def, Option.map_eq_some_iff] at hy
        obtain ⟨r, hr, rfl⟩ := hy
        rw [← hend]
        exact hhead r hr
    · rintro ⟨hall, hprev, hhead, hchain⟩
      have hrange := hall range (by simp)
      have hend : (UInt64.ofNat range.interval.stop).toNat = range.interval.stop :=
        UInt64.toNat_ofNat_of_lt hrange.end_lt
      refine ⟨hrange, by simpa using hprev, UInt64.ofNat range.interval.stop, hend, ih.mpr ?_⟩
      refine ⟨fun r hr => hall r (mem_cons_of_mem _ hr), fun r hr => ?_, hchain⟩
      rw [hend]
      exact hhead r.interval (by simp [Option.mem_def.mp hr])

/-- **What `validate_reserved_ranges` accepts.** -/
theorem validateReservedRanges_iff :
    validateReservedRanges ranges = .ok () ↔ ValidRanges ranges := by
  set byOffset := sortedByKey (fun range : ReservedRangeRecord => range.outputOffset.toNat) ranges
    with hby
  have hperm : byOffset.Perm ranges := sortedByKey_perm _ ranges
  have hsorted : (byOffset.map ReservedRangeRecord.interval).Pairwise
      fun a b => a.start ≤ b.start := by
    rw [pairwise_map]
    exact sortedByKey_pairwise _ ranges
  have hapart : (ranges.map ReservedRangeRecord.interval).Pairwise Apart ↔
      (byOffset.map ReservedRangeRecord.interval).Pairwise Apart :=
    (hperm.symm.map _).pairwise_iff fun h => Apart.symm h
  have hmem : ∀ r, r ∈ byOffset ↔ r ∈ ranges := fun r => hperm.mem_iff
  rw [validateReservedRanges, ← hby, checkReservedRanges_iff]
  constructor
  · rintro ⟨hall, -, hchain⟩
    refine ⟨fun r hr => hall r ((hmem r).mpr hr), hapart.mpr ?_⟩
    refine (pairwise_disjoint_iff_isChain id hsorted ?_).mpr hchain
    rintro a ha
    obtain ⟨r, hr, rfl⟩ := mem_map.mp ha
    exact (hall r hr).nonempty
  · rintro ⟨hall, hpair⟩
    have hall' : ∀ r ∈ byOffset, r.WellFormed := fun r hr => hall r ((hmem r).mp hr)
    refine ⟨hall', fun r _ => by simp, ?_⟩
    refine (pairwise_disjoint_iff_isChain id hsorted ?_).mp (hapart.mp hpair)
    rintro a ha
    obtain ⟨r, hr, rfl⟩ := mem_map.mp ha
    exact (hall' r hr).nonempty

/-! ## 3. One call -/

theorem getLast?_append_dropLast {last : α}
    (h : l.getLast? = some last) : l.dropLast ++ [last] = l := by
  have hne : l ≠ [] := by
    rintro rfl
    simp at h
  rw [getLast?_eq_some_getLast hne] at h
  rw [← Option.some.inj h]
  exact dropLast_append_getLast hne

/-- Replacing an element, up to order. -/
theorem set_perm_cons_eraseIdx : ∀ {l : List α} {index : Nat} (a : α),
    index < l.length → (l.set index a).Perm (a :: l.eraseIdx index)
  | [], _, _, h => absurd h (by simp)
  | b :: l, 0, a, _ => by simp
  | b :: l, index + 1, a, h => by
    rw [set_cons_succ, eraseIdx_cons_succ]
    have ih := set_perm_cons_eraseIdx (l := l) a (Nat.lt_of_succ_lt_succ h)
    exact (ih.cons b).trans (Perm.swap a b _)

/-- `swap_remove` removes the element at the index, up to order. -/
theorem cons_swapRemove_perm {index : Nat} {a : α}
    (h : l[index]? = some a) : (a :: swapRemove l index).Perm l := by
  obtain ⟨hlt, hget⟩ := List.getElem?_eq_some_iff.mp h
  cases hlast : l.getLast? with
  | none =>
    rw [getLast?_eq_none_iff] at hlast
    subst hlast
    exact absurd hlt (by simp)
  | some last =>
    rw [swapRemove, hlast]
    have hl := getLast?_append_dropLast hlast
    have hlen : l.dropLast.length + 1 = l.length := by
      rw [length_dropLast]
      omega
    by_cases hi : index < l.dropLast.length
    · -- an inner element: the last one takes its place
      have hset : (l.set index last).dropLast = l.dropLast.set index last := by
        conv_lhs => rw [← hl]
        rw [set_append_left _ _ hi, dropLast_concat]
      have ha : l.dropLast[index]? = some a := by
        rw [← h]
        conv_rhs => rw [← hl]
        rw [getElem?_append_left hi]
      obtain ⟨hi', hget'⟩ := List.getElem?_eq_some_iff.mp ha
      have hself : l.dropLast.set index a = l.dropLast := by
        rw [← hget', set_getElem_self]
      have h₁ := set_perm_cons_eraseIdx last hi
      have h₂ := set_perm_cons_eraseIdx a hi
      rw [hself] at h₂
      show (a :: (l.set index last).dropLast).Perm l
      rw [hset]
      calc (a :: l.dropLast.set index last).Perm (a :: last :: l.dropLast.eraseIdx index) :=
            h₁.cons a
        _ |>.Perm (last :: a :: l.dropLast.eraseIdx index) := Perm.swap last a _
        _ |>.Perm (last :: l.dropLast) := (h₂.symm).cons last
        _ |>.Perm (l.dropLast ++ [last]) := (perm_append_singleton last _).symm
        _ |>.Perm l := by rw [hl]
    · -- the last element itself
      have hindex : index = l.dropLast.length := by omega
      have ha : last = a := by
        have := h
        rw [← hl, hindex, getElem?_append_right (Nat.le_refl _)] at this
        simpa using this
      subst ha
      have hself : l.set index last = l := by rw [← hget, set_getElem_self]
      show (last :: (l.set index last).dropLast).Perm l
      rw [hself]
      calc (last :: l.dropLast).Perm (l.dropLast ++ [last]) :=
            (perm_append_singleton last _).symm
        _ |>.Perm l := by rw [hl]

variable {key : α → Nat} {granted : List (AllocationRequest × ReservedRangeAllocation)}

theorem minByKey_mem : ∀ {l : List α} {a : α},
    minByKey key l = some a → a ∈ l
  | [], a, h => by simp [minByKey] at h
  | b :: rest, a, h => by
    unfold minByKey at h
    split at h
    · cases h
      exact mem_cons_self
    · rename_i c hc
      split at h
      · cases h
        exact mem_cons_of_mem _ (minByKey_mem hc)
      · cases h
        exact mem_cons_self

theorem minByKey_eq_none :
    minByKey key l = none ↔ l = [] := by
  cases l with
  | nil => simp [minByKey]
  | cons b rest =>
    unfold minByKey
    split
    · simp
    · split <;> simp

/-- The size that is allocated is the requested size, rounded up; it is missing exactly when
that does not fit a `u64`. -/
theorem allocationSize_eq_some {alignment : Alignment} {size allocated : UInt64} :
    allocationSize alignment size = some allocated ↔
      allocated.toNat = roundUp alignment.exponent.toNat size.toNat := by
  set e := alignment.exponent.toNat with he
  have hsupported : e ≤ 16 := alignment.supported
  have hmask : alignment.mask.toNat = 2 ^ e - 1 := alignment.toNat_mask
  have hdown : ∀ total : UInt64, size.toNat + (2 ^ e - 1) = total.toNat →
      (alignment.alignDown total).toNat = roundUp e size.toNat := by
    intro total htotal
    have hdiv := Nat.div_add_mod' total.toNat (2 ^ e)
    rw [Alignment.toNat_alignDown, ← he, roundUp, htotal]
    omega
  rw [allocationSize, Option.map_eq_some_iff]
  constructor
  · rintro ⟨total, htotal, rfl⟩
    rw [checkedAdd_eq_some, hmask] at htotal
    exact hdown total htotal
  · intro hallocated
    have hfits : size.toNat + (2 ^ e - 1) < 2 ^ 64 := by
      by_contra hover
      have hbig := le_roundUp_of_overflow (by omega) (Nat.not_lt.mp hover)
      have := allocated.toNat_lt
      omega
    have htotal : (UInt64.ofNat (size.toNat + (2 ^ e - 1))).toNat = size.toNat + (2 ^ e - 1) :=
      UInt64.toNat_ofNat_of_lt hfits
    refine ⟨UInt64.ofNat (size.toNat + (2 ^ e - 1)), ?_, ?_⟩
    · rw [checkedAdd_eq_some, hmask, htotal]
    · rw [← UInt64.toNat_inj, hallocated]
      exact hdown _ htotal.symm

/-- A request: what a caller asks of the reserve. -/
structure AllocationRequest where
  outputSectionId : UInt32
  alignmentExponent : UInt8
  size : UInt64
  deriving DecidableEq

/-- The bytes a request takes. -/
def AllocationRequest.rounded (request : AllocationRequest) : Nat :=
  roundUp request.alignmentExponent.toNat request.size.toNat

/-- A range of the requested section and alignment. -/
def AllocationRequest.Matches (request : AllocationRequest) (range : ReservedRangeRecord) :
    Prop :=
  range.outputSectionId = request.outputSectionId ∧
    range.alignmentExponent = request.alignmentExponent

instance (request : AllocationRequest) (range : ReservedRangeRecord) :
    Decidable (request.Matches range) := inferInstanceAs (Decidable (_ ∧ _))

/-- `allocate_reserved_range` on a request. -/
def allocate (ranges : List ReservedRangeRecord) (request : AllocationRequest) :
    List ReservedRangeRecord × Result (Option ReservedRangeAllocation) :=
  allocateReservedRange ranges request.outputSectionId request.alignmentExponent request.size

/-- A range is a candidate exactly when it matches and is large enough. -/
theorem reserveCandidate_eq_some (index : Nat) (candidate : ReserveCandidate)
    (hsupported : range.alignmentExponent.toNat ≤ maxAlignmentExponent.toNat) :
    reserveCandidate request.outputSectionId request.alignmentExponent request.size
        (range, index) = some candidate ↔
      request.Matches range ∧ candidate.rangeIndex = index ∧
        candidate.outputOffset = range.outputOffset ∧
        candidate.allocationSize.toNat = request.rounded ∧
        request.rounded ≤ range.size.toNat := by
  unfold reserveCandidate
  by_cases hmatch : request.Matches range
  · obtain ⟨hsection, hexponent⟩ := hmatch
    have hfrom : (Alignment.fromExponent range.alignmentExponent).toOption
        = some ⟨range.alignmentExponent, hsupported⟩ := by
      have hok : Alignment.fromExponent range.alignmentExponent
          = .ok ⟨range.alignmentExponent, hsupported⟩ := Alignment.fromExponent_eq_ok.mpr rfl
      rw [hok]
      rfl
    simp only [hsection, hexponent, ne_eq, not_true_eq_false, or_self, if_false]
    rw [← hexponent, hfrom]
    simp only [Option.bind_eq_bind, Option.bind_some, Option.bind_eq_some_iff,
      allocationSize_eq_some, ge_iff_le, UInt64.le_iff_toNat_le]
    have hrounded : request.rounded
        = roundUp range.alignmentExponent.toNat request.size.toNat := by
      rw [AllocationRequest.rounded, ← hexponent]
    rw [hrounded]
    constructor
    · rintro ⟨allocated, hallocated, hcandidate⟩
      split at hcandidate
      · rename_i hle
        cases hcandidate
        exact ⟨⟨hsection, hexponent⟩, rfl, rfl, hallocated, by omega⟩
      · exact absurd hcandidate (by simp)
    · rintro ⟨-, hindex, hoffset, hallocated, hle⟩
      refine ⟨candidate.allocationSize, hallocated, ?_⟩
      rw [if_pos (by omega), Option.some.injEq]
      cases candidate
      simp_all
  · have hnot : range.outputSectionId ≠ request.outputSectionId ∨
        range.alignmentExponent ≠ request.alignmentExponent := by
      rw [AllocationRequest.Matches, not_and_or] at hmatch
      exact hmatch
    simp only [if_pos hnot, reduceCtorEq, false_iff]
    rintro ⟨hm, -⟩
    exact hmatch hm

/-- What a grant does to the list, up to order: one matching range, large enough, loses its
first bytes to the allocation, and disappears when none are left. -/
structure Granted (ranges : List ReservedRangeRecord) (request : AllocationRequest)
    (left : List ReservedRangeRecord) (allocation : ReservedRangeAllocation)
    (range : ReservedRangeRecord) (others : List ReservedRangeRecord) : Prop where
  before : ranges.Perm (range :: others)
  matching : request.Matches range
  offset : allocation.outputOffset = range.outputOffset
  size : allocation.size.toNat = request.rounded
  size_le : request.rounded ≤ range.size.toNat
  after : ∃ rest : ReservedRangeRecord, request.Matches rest ∧
    rest.outputOffset.toNat = range.outputOffset.toNat + request.rounded ∧
    rest.size.toNat = range.size.toNat - request.rounded ∧
    left.Perm (if rest.size = 0 then others else rest :: others)

section

variable (h : Granted ranges request left allocation range others)
include h

/-- The interval of the range is cut in two; an empty rest covers nothing. -/
theorem Granted.cover (n : Nat) :
    cover (left.map ReservedRangeRecord.interval) n
        + cover [allocation.interval] n
      = Interval.cover (ranges.map ReservedRangeRecord.interval) n := by
  obtain ⟨rest, -, hoffset, hsize, hperm⟩ := h.after
  have hle := h.size_le
  have hallocation : allocation.interval
      = ⟨range.interval.start, range.interval.start + request.rounded⟩ := by
    simp [ReservedRangeAllocation.interval, ReservedRangeRecord.interval, h.offset, h.size]
  have hrest : rest.interval
      = ⟨range.interval.start + request.rounded, range.interval.stop⟩ := by
    simp only [ReservedRangeRecord.interval, hoffset, hsize, mk.injEq, true_and]
    omega
  have hmiddle : range.interval.start + request.rounded ≤ range.interval.stop := by
    simp only [ReservedRangeRecord.interval]
    omega
  have hcut : Interval.cover [range.interval] n
      = Interval.cover [allocation.interval, rest.interval] n := by
    rw [hallocation, hrest]
    exact cover_cut (Nat.le_add_right _ _) hmiddle n
  rw [cover_perm (h.before.map _), map_cons, cover_perm (hperm.map _)]
  simp only [cover_cons, cover_nil] at hcut ⊢
  by_cases hzero : rest.size = 0
  · have hempty : ¬ rest.interval.Contains n := by
      rw [uint64_eq_zero_iff] at hzero
      simp only [Contains, ReservedRangeRecord.interval]
      omega
    rw [if_neg hempty] at hcut
    rw [if_pos hzero]
    omega
  · rw [if_neg hzero, map_cons, cover_cons]
    omega

/-- What is left of a well-formed range is well formed. -/
theorem Granted.wellFormed
    (hranges : ∀ r ∈ ranges, r.WellFormed) : ∀ r ∈ left, r.WellFormed := by
  obtain ⟨rest, hmatch, hoffset, hsize, hperm⟩ := h.after
  have hrange := hranges range (h.before.mem_iff.mpr (by simp))
  have hothers : ∀ r ∈ others, r.WellFormed := fun r hr =>
    hranges r (h.before.mem_iff.mpr (mem_cons_of_mem _ hr))
  intro r hr
  rw [hperm.mem_iff] at hr
  split at hr
  · exact hothers r hr
  · rename_i hzero
    rcases mem_cons.mp hr with rfl | hr
    · have hexp : r.alignmentExponent = range.alignmentExponent := by
        rw [hmatch.2, h.matching.2]
      have hdvd : 2 ^ range.alignmentExponent.toNat ∣ request.rounded := by
        rw [AllocationRequest.rounded, ← h.matching.2]
        exact dvd_roundUp _ _
      rw [uint64_eq_zero_iff] at hzero
      have hend := hrange.end_lt
      have hle := h.size_le
      refine ⟨by rw [hexp]; exact hrange.supported, by omega, ?_, ?_, by omega⟩
      · rw [hexp, hoffset]
        exact Nat.dvd_add hrange.dvd_offset hdvd
      · rw [hexp, hsize]
        exact Nat.dvd_sub hrange.dvd_size hdvd
    · exact hothers r hr

/-- A grant leaves a valid list. -/
theorem Granted.valid
    (hranges : ValidRanges ranges) : ValidRanges left := by
  have hwf := h.wellFormed hranges.wellFormed
  have hne : ∀ {l : List ReservedRangeRecord}, (∀ r ∈ l, r.WellFormed) →
      ∀ a ∈ l.map ReservedRangeRecord.interval, a.Nonempty := by
    intro l hl a ha
    obtain ⟨r, hr, rfl⟩ := mem_map.mp ha
    exact (hl r hr).nonempty
  refine ⟨hwf, (pairwise_disjoint_iff_cover_le_one (hne hwf)).mpr fun n => ?_⟩
  have hle := (pairwise_disjoint_iff_cover_le_one (hne hranges.wellFormed)).mp
    hranges.apart n
  have hcover := h.cover n
  omega

end

/-- **What one call does to a valid list.**  It grants; or it answers that there is nothing to
give, and says why; or it refuses an alignment it does not support.  Only a grant changes the
list. -/
theorem allocate_cases (h : ValidRanges ranges) (request : AllocationRequest) :
    (∃ left allocation range others,
      allocate ranges request = (left, .ok (some allocation)) ∧
      request.size ≠ 0 ∧ Granted ranges request left allocation range others) ∨
    (allocate ranges request = (ranges, .ok none) ∧ (request.size = 0 ∨
      request.alignmentExponent.toNat ≤ maxAlignmentExponent.toNat ∧
      ∀ range ∈ ranges, request.Matches range → range.size.toNat < request.rounded)) ∨
    (∃ e, allocate ranges request = (ranges, .error e) ∧ request.size ≠ 0 ∧
      maxAlignmentExponent.toNat < request.alignmentExponent.toNat) := by
  unfold allocate allocateReservedRange
  by_cases hsize : request.size = 0
  · exact .inr (.inl ⟨by rw [if_pos hsize], .inl hsize⟩)
  rw [if_neg hsize, validateReservedRanges_iff.mpr h]
  by_cases hexp : request.alignmentExponent.toNat ≤ maxAlignmentExponent.toNat
  swap
  · have herr : Alignment.fromExponent request.alignmentExponent
        = .error ("Unsupported alignment 2^" ++ toString request.alignmentExponent.toNat) :=
      dif_neg hexp
    rw [herr]
    exact .inr (.inr ⟨_, rfl, hsize, Nat.lt_of_not_le hexp⟩)
  have hok : Alignment.fromExponent request.alignmentExponent
      = .ok ⟨request.alignmentExponent, hexp⟩ := Alignment.fromExponent_eq_ok.mpr rfl
  rw [hok]
  dsimp only [withContext_ok]
  -- the candidates are the matching ranges that are large enough
  cases hmin : minByKey (fun candidate : ReserveCandidate => candidate.outputOffset.toNat)
      (ranges.zipIdx.filterMap (reserveCandidate request.outputSectionId
        request.alignmentExponent request.size)) with
  | none =>
    refine .inr (.inl ⟨rfl, .inr ⟨hexp, fun range hrange hmatch => ?_⟩⟩)
    rw [minByKey_eq_none, filterMap_eq_nil_iff] at hmin
    obtain ⟨index, hindex⟩ := mem_iff_getElem?.mp hrange
    by_contra hlarge
    have hnone := hmin (range, index) (mem_zipIdx_iff_getElem?.mpr hindex)
    have hfits : request.rounded < 2 ^ 64 := by
      have := range.size.toNat_lt
      omega
    have hsome := (reserveCandidate_eq_some index
      ⟨index, UInt64.ofNat request.rounded, range.outputOffset⟩ (h.wellFormed range hrange).supported).mpr
      ⟨hmatch, rfl, rfl, UInt64.toNat_ofNat_of_lt hfits, Nat.le_of_not_lt hlarge⟩
    rw [hnone] at hsome
    exact absurd hsome (by simp)
  | some candidate =>
    have hmem := minByKey_mem hmin
    rw [mem_filterMap] at hmem
    obtain ⟨⟨range, index⟩, hentry, hcandidate⟩ := hmem
    have hindex : ranges[index]? = some range := mem_zipIdx_iff_getElem?.mp hentry
    have hrange : range ∈ ranges := mem_of_getElem? hindex
    have hwf := h.wellFormed range hrange
    obtain ⟨hmatch, hidx, -, hallocated, hle⟩ :=
      (reserveCandidate_eq_some index candidate hwf.supported).mp hcandidate
    have hend := hwf.end_lt
    have hnext : checkedAdd range.outputOffset candidate.allocationSize
        = some (range.outputOffset + candidate.allocationSize) := by
      rw [checkedAdd, if_pos (by omega)]
    have hoffset := checkedAdd_eq_some.mp hnext
    dsimp only
    rw [hidx, hindex]
    dsimp only
    rw [hnext]
    dsimp only
    set rest : ReservedRangeRecord := { range with
      outputOffset := range.outputOffset + candidate.allocationSize
      size := range.size - candidate.allocationSize } with hrest
    have hrestSize : rest.size.toNat = range.size.toNat - request.rounded := by
      rw [hrest, ← hallocated]
      exact UInt64.toNat_sub_of_le _ _ (by rw [UInt64.le_iff_toNat_le]; omega)
    have hlt : index < ranges.length := (List.getElem?_eq_some_iff.mp hindex).1
    set left := sorted (if rest.size = 0 then swapRemove (ranges.set index rest) index
      else ranges.set index rest) with hleft
    have hset := set_perm_cons_eraseIdx rest hlt
    have hgranted : Granted ranges request left
        { outputOffset := range.outputOffset, size := candidate.allocationSize } range
        (ranges.eraseIdx index) := by
      refine ⟨?_, hmatch, rfl, hallocated, hle, rest, hmatch, ?_, hrestSize, ?_⟩
      · have hself : ranges.set index range = ranges := by
          rw [← (List.getElem?_eq_some_iff.mp hindex).2, set_getElem_self]
        have := set_perm_cons_eraseIdx range hlt
        rwa [hself] at this
      · rw [← hallocated]
        exact hoffset.symm
      · refine (sorted_perm _).trans ?_
        split
        · have hget : (ranges.set index rest)[index]? = some rest := by
            rw [getElem?_set_self hlt]
          exact ((cons_swapRemove_perm hget).trans hset).cons_inv
        · exact hset
    rw [validateReservedRanges_iff.mpr (hgranted.valid h)]
    exact .inl ⟨left, _, range, _, rfl, hsize, hgranted⟩

/-! ## 4. Runs -/

/-- A run of calls, each on the list the one before left, with the result of each. -/
def runAllocations : List ReservedRangeRecord → List AllocationRequest →
    List ReservedRangeRecord × List (AllocationRequest × Result (Option ReservedRangeAllocation))
  | ranges, [] => (ranges, [])
  | ranges, request :: requests =>
    let (left, result) := allocate ranges request
    let (final, results) := runAllocations left requests
    (final, (request, result) :: results)

/-- The allocations among the results, each with its request. -/
def grants (results : List (AllocationRequest × Result (Option ReservedRangeAllocation))) :
    List (AllocationRequest × ReservedRangeAllocation) :=
  results.filterMap fun entry => match entry.2 with
    | .ok (some allocation) => some (entry.1, allocation)
    | _ => none

/-- The intervals of the ranges that are left and of the allocations. -/
def pieces (ranges : List ReservedRangeRecord)
    (granted : List (AllocationRequest × ReservedRangeAllocation)) : List Interval :=
  ranges.map ReservedRangeRecord.interval ++ granted.map fun entry => entry.2.interval

/-- The bytes of a list of ranges. -/
def rangeBytes (ranges : List ReservedRangeRecord) : Nat :=
  (ranges.map fun range => range.size.toNat).sum

/-- The bytes of a list of allocations. -/
def grantedBytes (granted : List (AllocationRequest × ReservedRangeAllocation)) : Nat :=
  (granted.map fun entry => entry.2.size.toNat).sum

/-- Where an allocation came from: an original range of the requested section and alignment. -/
def CutFrom (original : List ReservedRangeRecord) (request : AllocationRequest)
    (allocation : ReservedRangeAllocation) : Prop :=
  ∃ range ∈ original, request.Matches range ∧
    range.interval.start ≤ allocation.interval.start ∧
    allocation.interval.stop ≤ range.interval.stop

/-- What an allocation looks like: aligned, and of the requested size rounded up. -/
def Fits (request : AllocationRequest) (allocation : ReservedRangeAllocation) : Prop :=
  2 ^ request.alignmentExponent.toNat ∣ allocation.outputOffset.toNat ∧
    allocation.size.toNat = request.rounded ∧ 0 < allocation.size.toNat

/-- **The invariant of a run.**  Every byte is covered as often as it was at the start, and every
range that is left lies inside an original range of the same section and alignment. -/
structure Accounted (original ranges : List ReservedRangeRecord)
    (granted : List (AllocationRequest × ReservedRangeAllocation)) : Prop where
  valid : ValidRanges ranges
  cover : ∀ n, cover (pieces ranges granted) n
    = cover (original.map ReservedRangeRecord.interval) n
  bytes : rangeBytes ranges + grantedBytes granted = rangeBytes original
  inside : ∀ range ∈ ranges, ∃ source ∈ original,
    source.outputSectionId = range.outputSectionId ∧
    source.alignmentExponent = range.alignmentExponent ∧
    source.interval.start ≤ range.interval.start ∧ range.interval.stop ≤ source.interval.stop
  granted : ∀ entry ∈ granted, CutFrom original entry.1 entry.2 ∧ Fits entry.1 entry.2

theorem Accounted.start {original : List ReservedRangeRecord} (h : ValidRanges original) :
    Accounted original original [] where
  valid := h
  cover n := by simp [pieces]
  bytes := by simp [grantedBytes]
  inside range hrange := ⟨range, hrange, rfl, rfl, Nat.le_refl _, Nat.le_refl _⟩
  granted entry hentry := absurd hentry (by simp)

theorem rangeBytes_perm {a b : List ReservedRangeRecord} (h : a.Perm b) :
    rangeBytes a = rangeBytes b :=
  (h.map _).sum_nat

variable {original : List ReservedRangeRecord}

/-- **A grant keeps the account.** -/
theorem Accounted.grant
    (h : Accounted original ranges granted)
    (hgrant : Granted ranges request left allocation range others) (hsize : request.size ≠ 0) :
    Accounted original left (granted ++ [(request, allocation)]) := by
  have hmem : range ∈ ranges := hgrant.before.mem_iff.mpr (by simp)
  have hwf := h.valid.wellFormed range hmem
  obtain ⟨source, hsource, hsection, hexponent, hstart, hstop⟩ := h.inside range hmem
  obtain ⟨rest, hrestMatch, hrestOffset, hrestSize, hafter⟩ := hgrant.after
  have hmatch := hgrant.matching
  have hle := hgrant.size_le
  refine ⟨hgrant.valid h.valid, fun n => ?_, ?_, ?_, ?_⟩
  · rw [← h.cover n]
    have hcover := hgrant.cover n
    simp only [pieces, cover_append, map_append, map_cons, map_nil] at *
    omega
  · have hbytes := h.bytes
    have hbefore := rangeBytes_perm hgrant.before
    have hleft := rangeBytes_perm hafter
    have hsizeEq := hgrant.size
    rw [← hbytes, hbefore, hleft]
    split
    · rename_i hzero
      rw [uint64_eq_zero_iff] at hzero
      simp only [rangeBytes, grantedBytes, map_cons, sum_cons, map_append,
        sum_append, map_nil, sum_nil]
      omega
    · simp only [rangeBytes, grantedBytes, map_cons, sum_cons, map_append,
        sum_append, map_nil, sum_nil]
      omega
  · intro r hr
    rw [hafter.mem_iff] at hr
    have hothers : ∀ r ∈ others, r ∈ ranges := fun r hr =>
      hgrant.before.mem_iff.mpr (mem_cons_of_mem _ hr)
    split at hr
    · exact h.inside r (hothers r hr)
    · rcases mem_cons.mp hr with rfl | hr
      · refine ⟨source, hsource, ?_, ?_, ?_, ?_⟩
        · rw [hsection, hmatch.1, hrestMatch.1]
        · rw [hexponent, hmatch.2, hrestMatch.2]
        · simp only [ReservedRangeRecord.interval] at hstart ⊢
          omega
        · simp only [ReservedRangeRecord.interval] at hstop ⊢
          omega
      · exact h.inside r (hothers r hr)
  · intro entry hentry
    rcases mem_append.mp hentry with hentry | hentry
    · exact h.granted entry hentry
    · rw [mem_singleton] at hentry
      subst hentry
      refine ⟨⟨source, hsource, ⟨?_, ?_⟩, ?_, ?_⟩, ?_, hgrant.size, ?_⟩
      · rw [hsection, hmatch.1]
      · rw [hexponent, hmatch.2]
      · simp only [ReservedRangeAllocation.interval, hgrant.offset]
        exact hstart
      · simp only [ReservedRangeAllocation.interval, ReservedRangeRecord.interval, hgrant.offset,
          hgrant.size] at hstop ⊢
        omega
      · show 2 ^ request.alignmentExponent.toNat ∣ allocation.outputOffset.toNat
        rw [hgrant.offset, ← hmatch.2]
        exact hwf.dvd_offset
      · show 0 < allocation.size.toNat
        rw [hgrant.size, AllocationRequest.rounded]
        have hpos : request.size.toNat ≠ 0 := fun hz => hsize (uint64_eq_zero_iff.mpr hz)
        have := le_roundUp request.alignmentExponent.toNat request.size.toNat
        omega

/-- **Every run keeps the account.** -/
theorem Accounted.run {original : List ReservedRangeRecord} :
    ∀ (requests : List AllocationRequest) {ranges : List ReservedRangeRecord}
      {granted : List (AllocationRequest × ReservedRangeAllocation)},
      Accounted original ranges granted →
      Accounted original (runAllocations ranges requests).1
        (granted ++ grants (runAllocations ranges requests).2)
  | [], ranges, granted, h => by simpa [runAllocations, grants] using h
  | request :: requests, ranges, granted, h => by
    rcases allocate_cases h.valid request with
      ⟨left, allocation, range, others, hcall, hsize, hgrant⟩ | ⟨hcall, -⟩ | ⟨e, hcall, -⟩
    · have ih := Accounted.run requests (h.grant hgrant hsize)
      simpa [runAllocations, hcall, grants] using ih
    · have ih := Accounted.run requests h
      simpa [runAllocations, hcall, grants] using ih
    · have ih := Accounted.run requests h
      simpa [runAllocations, hcall, grants] using ih

/-- The pieces of a run are disjoint, because no byte is covered twice. -/
theorem Accounted.apart
    (h : Accounted original ranges granted) (horiginal : ValidRanges original) :
    (pieces ranges granted).Pairwise Apart := by
  have hne : ∀ a ∈ pieces ranges granted, a.Nonempty := by
    intro a ha
    rcases mem_append.mp ha with ha | ha
    · obtain ⟨r, hr, rfl⟩ := mem_map.mp ha
      exact (h.valid.wellFormed r hr).nonempty
    · obtain ⟨entry, hentry, rfl⟩ := mem_map.mp ha
      have := (h.granted entry hentry).2.2.2
      simp only [Interval.Nonempty, ReservedRangeAllocation.interval]
      omega
  have hne' : ∀ a ∈ original.map ReservedRangeRecord.interval, a.Nonempty := by
    intro a ha
    obtain ⟨r, hr, rfl⟩ := mem_map.mp ha
    exact (horiginal.wellFormed r hr).nonempty
  refine (pairwise_disjoint_iff_cover_le_one hne).mpr fun n => ?_
  rw [h.cover n]
  exact (pairwise_disjoint_iff_cover_le_one hne').mp horiginal.apart n

/-- **The reserved-range allocator.**  Start from any valid list and make any calls.  The list
stays valid.  Every allocation was cut from one original range of the requested section and
alignment, is aligned, and has the requested size rounded up.  The allocations and the ranges
that are left are pairwise disjoint, cover exactly the reserved bytes, and add up to them.
Whatever is asked next, the answer is `None` exactly when the size is zero, or when the
alignment is supported and no matching range is large enough; it is an error exactly when the
size is not zero and the alignment is not supported; and an error leaves the list alone. -/
theorem reserved_range_allocator (original : List ReservedRangeRecord)
    (h : validateReservedRanges original = .ok ()) (requests : List AllocationRequest) :
    let ranges := (runAllocations original requests).1
    let granted := grants (runAllocations original requests).2
    validateReservedRanges ranges = .ok () ∧
    (∀ entry ∈ granted, CutFrom original entry.1 entry.2 ∧
      2 ^ entry.1.alignmentExponent.toNat ∣ entry.2.outputOffset.toNat ∧
      entry.2.size.toNat = entry.1.rounded) ∧
    (pieces ranges granted).Pairwise Apart ∧
    (∀ n, cover (pieces ranges granted) n
      = cover (original.map ReservedRangeRecord.interval) n) ∧
    rangeBytes ranges + grantedBytes granted = rangeBytes original ∧
    ∀ request : AllocationRequest,
      ((allocate ranges request).2 = .ok none ↔ request.size = 0 ∨
        request.alignmentExponent.toNat ≤ maxAlignmentExponent.toNat ∧
        ∀ range ∈ ranges, request.Matches range → range.size.toNat < request.rounded) ∧
      ((∃ e, (allocate ranges request).2 = .error e) ↔ request.size ≠ 0 ∧
        maxAlignmentExponent.toNat < request.alignmentExponent.toNat) ∧
      (∀ e, (allocate ranges request).2 = .error e → (allocate ranges request).1 = ranges) := by
  intro ranges granted
  have hvalid : ValidRanges original := validateReservedRanges_iff.mp h
  have hrun : Accounted original ranges granted := by
    simpa using Accounted.run requests (Accounted.start hvalid)
  refine ⟨validateReservedRanges_iff.mpr hrun.valid, fun entry hentry => ?_,
    hrun.apart hvalid, hrun.cover, hrun.bytes, fun request => ?_⟩
  · obtain ⟨hcut, haligned, hsize, -⟩ := hrun.granted entry hentry
    exact ⟨hcut, haligned, hsize⟩
  · rcases allocate_cases hrun.valid request with
      ⟨left, allocation, range, others, hcall, hsize, hgrant⟩ | ⟨hcall, hnone⟩ |
      ⟨e, hcall, hsize, hexp⟩
    · have hmem : range ∈ ranges := hgrant.before.mem_iff.mpr (by simp)
      have hexp : request.alignmentExponent.toNat ≤ maxAlignmentExponent.toNat := by
        rw [← hgrant.matching.2]
        exact (hrun.valid.wellFormed range hmem).supported
      rw [hcall]
      refine ⟨⟨fun hsome => absurd hsome (by simp), ?_⟩, ⟨?_, ?_⟩, fun e he => absurd he (by simp)⟩
      · rintro (hzero | ⟨-, hsmall⟩)
        · exact absurd hzero hsize
        · have := hsmall range hmem hgrant.matching
          have := hgrant.size_le
          omega
      · rintro ⟨e, he⟩
        exact absurd he (by simp)
      · rintro ⟨-, hlarge⟩
        omega
    · rw [hcall]
      refine ⟨⟨fun _ => hnone, fun _ => rfl⟩, ⟨?_, ?_⟩, fun _ _ => rfl⟩
      · rintro ⟨e, he⟩
        exact absurd he (by simp)
      · rintro ⟨hsize, hlarge⟩
        rcases hnone with hzero | ⟨hexp, -⟩
        · exact absurd hzero hsize
        · omega
    · rw [hcall]
      refine ⟨⟨fun hsome => absurd hsome (by simp), ?_⟩, ⟨fun _ => ⟨hsize, hexp⟩, ?_⟩,
        fun _ _ => rfl⟩
      · rintro (hzero | ⟨hle, -⟩)
        · exact absurd hzero hsize
        · omega
      · exact fun _ => ⟨e, rfl⟩

/-- Twelve bytes of four-byte alignment, asked for five and then for eight more: the second
request finds only four bytes left. -/
theorem reserved_range_allocator_two_requests :
    let range : ReservedRangeRecord := ⟨4, 2, 64, 12⟩
    let requests : List AllocationRequest := [⟨4, 2, 5⟩, ⟨4, 2, 8⟩]
    validateReservedRanges [range] = .ok () ∧
    validateReservedRanges (runAllocations [range] requests).1 = .ok () ∧
    rangeBytes (runAllocations [range] requests).1
      + grantedBytes (grants (runAllocations [range] requests).2) = 12 := by
  intro range requests
  have hvalid : validateReservedRanges [⟨4, 2, 64, 12⟩] = .ok () := rfl
  have hall := reserved_range_allocator [range] hvalid requests
  exact ⟨hvalid, hall.1, hall.2.2.2.2.1⟩

/-- An alignment the linker does not support is an error even when no range matches it. -/
theorem unsupported_alignment_is_not_none :
    ¬ ∀ (ranges : List ReservedRangeRecord) (request : AllocationRequest),
      validateReservedRanges ranges = .ok () →
      ((allocate ranges request).2 = .ok none ↔ request.size = 0 ∨
        ∀ range ∈ ranges, request.Matches range → range.size.toNat < request.rounded) := by
  intro hclaim
  have hnone := (hclaim [⟨4, 2, 64, 12⟩] ⟨4, 17, 1⟩ rfl).mpr (.inr (by decide))
  have herror : (allocate [⟨4, 2, 64, 12⟩] ⟨4, 17, 1⟩).2
      = .error "Invalid incremental reserve allocation alignment" := rfl
  rw [herror] at hnone
  exact absurd hnone (by simp)

end Srs.Incremental
