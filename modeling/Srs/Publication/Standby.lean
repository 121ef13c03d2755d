/-
# The ranges in which a standby differs, and the file that they are kept in

The standby is one generation behind the output.  Where the two differ is kept as a list of
ranges, merged, written to the state file, read back and merged again.  Two facts about this are
needed, and both have a direction that matters.

* Merging loses no byte (`covered_mergedOutputRanges`).  It is the sorting that makes this true:
  a range is only merged into the one before it, and is dropped there if it began before that one
  does.
* What is read back is what was written (`parsed_standbyStateText`).

`AgreeExcept` is what the ranges mean: two files of one length that agree everywhere else.
Writing a piece of the one into the other takes that piece out of the exception
(`AgreeExcept.copy`).
-/
import Srs.Publication.DirectlyPatched
import Srs.Incremental.IndexRoundTrip

namespace Srs.Publication

open Text List Option Decimal
open Incremental (FileIdentity)

/-! ## 1. Merged ranges -/

/-- Some range contains the position. -/
def Covered (ranges : List Interval) (i : Nat) : Prop := ∃ r ∈ ranges, r.Contains i

variable {i : Nat} {ranges : List Interval} {bytes : List UInt8} {offset : Nat} {data : List UInt8}
  {len : Nat}

theorem covered_append {a b : List Interval} :
    Covered (a ++ b) i ↔ Covered a i ∨ Covered b i := by
  simp [Covered, or_and_right, exists_or]

/-- A range that does not begin before the last one is not lost by merging it. -/
theorem covered_mergeRange {merged : List Interval} {range : Interval}
    (h : ∀ previous ∈ merged.getLast?, previous.start ≤ range.start)
    (hi : Covered merged i ∨ range.Contains i) : Covered (mergeRange merged range) i := by
  rcases merged.eq_nil_or_concat with rfl | ⟨init, previous, rfl⟩
  · rcases hi with ⟨r, hr, -⟩ | hi
    · exact absurd hr (by simp)
    · exact ⟨range, by simp [mergeRange], hi⟩
  · rw [concat_eq_append] at h hi ⊢
    have hstart : previous.start ≤ range.start := h previous (by simp)
    have hmerge : mergeRange (init ++ [previous]) range =
        if range.start ≤ previous.stop then
          init ++ [{ previous with stop := max previous.stop range.stop }]
        else init ++ [previous] ++ [range] := by
      simp [mergeRange]
    rw [hmerge]
    split
    · rename_i htouch
      rcases hi with hi | hi
      · rcases covered_append.mp hi with hinit | ⟨r, hr, hlast⟩
        · exact covered_append.mpr (.inl hinit)
        · obtain rfl := mem_singleton.mp hr
          exact covered_append.mpr (.inr ⟨_, mem_singleton_self _, hlast.1,
            lt_of_lt_of_le hlast.2 (le_max_left _ _)⟩)
      · exact covered_append.mpr (.inr ⟨_, mem_singleton_self _, le_trans hstart hi.1,
          lt_of_lt_of_le hi.2 (le_max_right _ _)⟩)
    · rcases hi with hi | hi
      · exact covered_append.mpr (.inl hi)
      · exact covered_append.mpr (.inr ⟨_, mem_singleton_self _, hi⟩)

/-- The last range of a merged list begins where one of the two did. -/
theorem getLast?_mergeRange_start (merged : List Interval) (range : Interval) :
    ∃ last, (mergeRange merged range).getLast? = some last ∧
      (last.start = range.start ∨ ∃ previous ∈ merged.getLast?, last.start = previous.start) := by
  rcases merged.eq_nil_or_concat with rfl | ⟨init, previous, rfl⟩
  · exact ⟨range, by simp [mergeRange], .inl rfl⟩
  · rw [concat_eq_append]
    by_cases htouch : range.start ≤ previous.stop
    · exact ⟨{ previous with stop := max previous.stop range.stop }, by simp [mergeRange, htouch],
        .inr ⟨previous, by simp, rfl⟩⟩
    · exact ⟨range, by simp [mergeRange, htouch], .inl rfl⟩

theorem covered_foldl_mergeRange : ∀ {merged : List Interval},
    ranges.Pairwise (fun a b => a.start ≤ b.start) →
      (∀ previous ∈ merged.getLast?, ∀ r ∈ ranges, previous.start ≤ r.start) → ∀ {i : Nat},
        Covered merged i ∨ Covered ranges i → Covered (ranges.foldl mergeRange merged) i := by
  induction ranges with
  | nil =>
    rintro merged - - i (hi | ⟨r, hr, -⟩)
    · exact hi
    · exact absurd hr (by simp)
  | cons range ranges ih =>
    intro merged hsorted hlast i hi
    obtain ⟨hfirst, hrest⟩ := pairwise_cons.mp hsorted
    have hhead : ∀ previous ∈ merged.getLast?, previous.start ≤ range.start :=
      fun previous hp => hlast previous hp range (by simp)
    refine ih hrest ?_ ?_
    · intro last hlast' r hr
      obtain ⟨last', heq, hstart⟩ := getLast?_mergeRange_start merged range
      obtain rfl : last' = last := some.inj (heq.symm.trans hlast')
      rcases hstart with hstart | ⟨previous, hp, hstart⟩
      · exact hstart ▸ hfirst r hr
      · exact hstart ▸ hlast previous hp r (mem_cons_of_mem _ hr)
    · rcases hi with hi | ⟨r, hr, hi⟩
      · exact .inl (covered_mergeRange hhead (.inl hi))
      · rcases mem_cons.mp hr with rfl | hr
        · exact .inl (covered_mergeRange hhead (.inr hi))
        · exact .inr ⟨r, hr, hi⟩

/-- **Merging ranges loses no byte.** -/
theorem covered_mergedOutputRanges (h : Covered ranges i) :
    Covered (mergedOutputRanges ranges) i := by
  obtain ⟨r, hr, hi⟩ := h
  have hsorted := @List.pairwise_mergeSort Interval (fun a b => decide (a.start ≤ b.start))
    (fun a b c hab hbc => by simp at *; omega) (fun a b => by simp; omega)
    (ranges.filter fun range => range.start < range.stop)
  refine covered_foldl_mergeRange (by simpa using hsorted) (by simp) (.inr ⟨r, ?_, hi⟩)
  have hne : r.start < r.stop := lt_of_le_of_lt hi.1 hi.2
  simp [mem_mergeSort, hr, hne]

/-! ## 2. Files that agree except for some positions -/

/-- Two files of one length that agree wherever `differs` does not hold. -/
structure AgreeExcept (differs : Nat → Prop) (a b : List UInt8) : Prop where
  length_eq : a.length = b.length
  agree : ∀ i, ¬ differs i → a[i]? = b[i]?

namespace AgreeExcept

variable {differs differs' : Nat → Prop} {a b : List UInt8}

theorem refl (a : List UInt8) : AgreeExcept differs a a := ⟨rfl, fun _ _ => rfl⟩

theorem symm (h : AgreeExcept differs a b) : AgreeExcept differs b a :=
  ⟨h.length_eq.symm, fun i hi => (h.agree i hi).symm⟩

theorem mono (h : AgreeExcept differs a b) (himp : ∀ i, differs i → differs' i) :
    AgreeExcept differs' a b :=
  ⟨h.length_eq, fun i hi => h.agree i fun hd => hi (himp i hd)⟩

theorem eq (h : AgreeExcept differs a b) (hnone : ∀ i, ¬ differs i) : a = b :=
  ext_getElem? fun i => h.agree i (hnone i)

end AgreeExcept

section

variable (h : offset + data.length ≤ bytes.length)
include h

theorem overwrite_of_le :
    overwrite bytes offset data = bytes.take offset ++ data ++ bytes.drop (offset + data.length) := by
  have : offset - bytes.length = 0 := by omega
  simp [overwrite, this]

theorem length_overwrite :
    (overwrite bytes offset data).length = bytes.length := by
  rw [overwrite_of_le h]
  simp only [length_append, length_take, length_drop]
  omega

theorem getElem?_overwrite (i : Nat) :
    (overwrite bytes offset data)[i]? =
      if offset ≤ i ∧ i < offset + data.length then data[i - offset]? else bytes[i]? := by
  rw [overwrite_of_le h]
  have htake : (bytes.take offset).length = offset := by
    rw [length_take]
    omega
  rcases lt_or_ge i offset with hlt | hge
  · rw [if_neg (by omega), List.append_assoc, getElem?_append_left (by omega),
      getElem?_take_of_lt hlt]
  · rcases lt_or_ge i (offset + data.length) with hin | hout
    · rw [if_pos ⟨hge, hin⟩, List.append_assoc, getElem?_append_right (by omega), htake,
        getElem?_append_left (by omega)]
    · rw [if_neg (by omega), getElem?_append_right
        (by rw [length_append, htake]; omega), length_append, htake, getElem?_drop]
      congr 1
      omega

end

/-- **A piece of `b` written into `a` is no exception any more.** -/
theorem AgreeExcept.copy {differs : Nat → Prop} {a b : List UInt8} (h : AgreeExcept differs a b)
    (hlen : offset + len ≤ b.length) :
    AgreeExcept (fun i => differs i ∧ ¬ (offset ≤ i ∧ i < offset + len))
      (overwrite a offset ((b.drop offset).take len)) b := by
  have hdata : ((b.drop offset).take len).length = len := by
    rw [length_take, length_drop]
    omega
  have hfit : offset + ((b.drop offset).take len).length ≤ a.length := by
    rw [hdata, h.length_eq]
    exact hlen
  refine ⟨(length_overwrite hfit).trans h.length_eq, fun i hi => ?_⟩
  rw [getElem?_overwrite hfit, hdata]
  split
  · rename_i hin
    rw [getElem?_take_of_lt (by omega), getElem?_drop]
    congr 1
    omega
  · rename_i hout
    exact h.agree i fun hd => hi ⟨hd, hout⟩

/-- Bytes written anywhere into `a` are an exception more. -/
theorem AgreeExcept.overwrite {differs : Nat → Prop} {a b : List UInt8}
    (h : AgreeExcept differs a b) (hfit : offset + data.length ≤ a.length) :
    AgreeExcept (fun i => differs i ∨ (offset ≤ i ∧ i < offset + data.length))
      (overwrite a offset data) b := by
  refine ⟨(length_overwrite hfit).trans h.length_eq, fun i hi => ?_⟩
  rw [getElem?_overwrite hfit, if_neg fun hin => hi (.inr hin)]
  exact h.agree i fun hd => hi (.inl hd)

/-! ## 3. The state file -/

theorem isLine_digits (n : Nat) : IsLine (render n) := by
  refine ⟨newline_not_mem n, fun h => ?_⟩
  rcases render_chars n '\r' (mem_of_getLast? h) with h | h
  · exact absurd h (by decide)
  · exact absurd h (by decide)

theorem isLine_renderRange (range : Interval) : IsLine (renderRange range) := by
  refine ⟨?_, ?_⟩
  · simp only [renderRange, mem_append, mem_cons, not_or]
    exact ⟨newline_not_mem _, by decide, newline_not_mem _⟩
  · obtain ⟨c, t, hdigits, -, -⟩ := digits_eq_cons range.stop
    have hlast := (isLine_digits range.stop).2
    have hrender : (render range.stop : Text) = c :: t := hdigits
    rw [hrender] at hlast
    rw [renderRange, hrender, getLast?_append, getLast?_cons_cons]
    simpa using hlast

theorem isLine_identity (identity : FileIdentity) : IsLine identity.render :=
  Incremental.isLine_renderIdentity (some identity)

theorem lines_standbyStateText (o s : FileIdentity) (ranges : List Interval) :
    lines (standbyStateText o s ranges) = DIRECT_PATCH_STANDBY_STATE_VERSION :: o.render ::
      s.render :: render ranges.length :: ranges.map renderRange := by
  refine lines_unlines ?_
  simp only [mem_cons, List.mem_map]
  rintro line (rfl | rfl | rfl | rfl | ⟨range, -, rfl⟩)
  · decide
  · exact isLine_identity o
  · exact isLine_identity s
  · exact isLine_digits _
  · exact isLine_renderRange range

theorem parseIdentityLine_render (identity : FileIdentity) :
    parseIdentityLine identity.render = some identity := by
  simp [parseIdentityLine, Incremental.FileIdentity.parse_render, Except.toOption]

/-- A range that is read back is the one that was written. -/
theorem parseRange_renderRange {range r : Interval}
    (h : parseRange len (renderRange range) = some r) : r = range := by
  have hsplit : splitOnce ':' (renderRange range) =
      some (render range.start, render range.stop) :=
    splitOnce_append _ (colon_not_mem _)
  simp only [parseRange, hsplit, bind_eq_bind, bind_some, parse_render] at h
  split at h
  · cases h
  · exact (some.inj h).symm

theorem mapM_parseRange : ∀ {rs : List Interval},
    (ranges.map renderRange).mapM (parseRange len) = some rs → rs = ranges := by
  induction ranges with
  | nil =>
    intro rs h
    simpa using h.symm
  | cons range ranges ih =>
    intro rs h
    simp only [map_cons, mapM_cons, bind_eq_bind, bind_eq_some_iff,
      Option.pure_def, some.injEq] at h
    obtain ⟨r, hr, rest, hrest, rfl⟩ := h
    rw [parseRange_renderRange hr, ih hrest]

/-- What a reader finds in the header of a state file. -/
theorem parseStandbyHeader_text (o s : FileIdentity) (ranges : List Interval) :
    parseStandbyHeader (standbyStateText o s ranges) =
      some (o, s, render ranges.length :: ranges.map renderRange) := by
  simp [parseStandbyHeader, lines_standbyStateText, parseIdentityLine_render]

/-- The ranges that a reader gets are those that were written, merged. -/
theorem parseStandbyRanges_text {rs : List Interval}
    (h : parseStandbyRanges len (render ranges.length :: ranges.map renderRange)
      = some rs) : rs = mergedOutputRanges ranges := by
  have hall : (ranges.map renderRange).take ranges.length = ranges.map renderRange :=
    take_of_length_le (by simp)
  simp only [parseStandbyRanges, parse_render, bind_eq_bind, bind_some,
    hall] at h
  split at h
  · cases h
  · obtain ⟨rs', hrs', h⟩ := bind_eq_some_iff.mp h
    obtain rfl := mapM_parseRange hrs'
    split at h
    · cases h
    · exact (some.inj h).symm

end Srs.Publication
