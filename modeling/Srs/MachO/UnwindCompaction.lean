/-
# What is kept of `__eh_frame`

`compact_macho_eh_frame` goes over the entries once more.  Where their numbers of bytes have 32 bits,
it keeps the FDEs that are alive and the CIEs that these refer to, and deletes the other entries and
the terminator with all that is behind it (`keepsExactly_iff`).
-/
import Mathlib.Data.List.Pairwise
import Srs.MachO.UnwindTables

namespace Srs.MachO.UnwindMetadata

open Buffers DeadStrip List Option

/-! ## 1. The CIEs that are referred to -/

/-- The pointer of an FDE designates the CIE. -/
def Designates (fde cie : EhFrameEntryBounds) : Prop :=
  cie.ciePointer = 0 ∧ cie.start + fde.ciePointer = fde.start + 4

/-- Every FDE refers to a CIE. -/
def CiesFound (entries : List EhFrameEntryBounds) : Prop :=
  ∀ fde ∈ entries, fde.ciePointer ≠ 0 → ∃ cie ∈ entries, Designates fde cie

/-- The entry is an FDE that is alive, or a CIE that one refers to. -/
def Stays (entries : List EhFrameEntryBounds) (liveFdes : Nat → Bool)
    (bounds : EhFrameEntryBounds) : Prop :=
  if bounds.ciePointer = 0 then
    ∃ fde ∈ entries, fde.ciePointer ≠ 0 ∧ liveFdes fde.start = true ∧ Designates fde bounds
  else liveFdes bounds.start = true

variable {data : Bytes} {entries : List EhFrameEntryBounds} {liveFdes : Nat → Bool}

section

variable (h : entryBounds data 0 = .ok entries)
include h

variable {a b : EhFrameEntryBounds}

/-- Entries lie apart. -/
theorem eq_or_apart
    (ha : a ∈ entries) (hb : b ∈ entries) : a = b ∨ a.stop ≤ b.start ∨ b.stop ≤ a.start := by
  obtain ⟨-, hpairwise, -⟩ := entryBounds_spec h
  by_cases heq : a = b
  · exact Or.inl heq
  · have hsymm : Std.Symm fun a b : EhFrameEntryBounds => a.stop ≤ b.start ∨ b.stop ≤ a.start :=
      ⟨fun _ _ => Or.symm⟩
    have hapart : entries.Pairwise fun a b => a.stop ≤ b.start ∨ b.stop ≤ a.start :=
      hpairwise.imp Or.inl
    exact Or.inr (hapart.forall ha hb heq)

theorem eq_of_start_eq
    (ha : a ∈ entries) (hb : b ∈ entries) (hstart : a.start = b.start) : a = b := by
  obtain ⟨hbounds, -, -⟩ := entryBounds_spec h
  have ha' := hbounds a ha
  have hb' := hbounds b hb
  rcases eq_or_apart h ha hb with heq | hle | hle
  · exact heq
  · omega
  · omega

theorem cieOf_eq_ok_iff {fde cie : EhFrameEntryBounds} :
    cieOf entries fde = .ok cie ↔ cie ∈ entries ∧ Designates fde cie := by
  constructor
  · intro hcall
    obtain ⟨start, hstart, hcall⟩ := bind_eq_ok.mp hcall
    obtain ⟨found, hfound, hcall⟩ := bind_eq_ok.mp hcall
    obtain ⟨_, hzero, hcall⟩ := bind_eq_ok.mp hcall
    obtain rfl := Except.ok.inj hcall
    have hfind := okOr_eq_ok.mp hfound
    have hsome := okOr_eq_ok.mp hstart
    split at hsome
    · rename_i hle
      obtain rfl := some.inj hsome
      have hsame : found.start = fde.start + 4 - fde.ciePointer := by
        simpa using find?_some hfind
      exact ⟨mem_of_find?_eq_some hfind, ensure_eq_ok.mp hzero, by omega⟩
    · cases hsome
  · rintro ⟨hmem, hzero, hsum⟩
    have hle : fde.ciePointer ≤ fde.start + 4 := by omega
    have hfind : entries.find? (fun entry => entry.start = fde.start + 4 - fde.ciePointer)
        = some cie := by
      refine find?_eq_some_iff_append.mpr ?_
      obtain ⟨front, back, rfl⟩ := append_of_mem hmem
      refine ⟨decide_eq_true (by omega), front, back, rfl, fun other hother => ?_⟩
      -- an entry in front of the CIE starts elsewhere
      obtain ⟨hbounds, hpairwise, -⟩ := entryBounds_spec h
      have hapart := (pairwise_append.mp hpairwise).2.2 other hother cie mem_cons_self
      have hlt := (hbounds other (mem_append_left _ hother)).2.1
      rw [Bool.not_eq_true', decide_eq_false_iff_not]
      omega
    rw [cieOf, if_pos hle, okOr, ok_bind, hfind, okOr, ok_bind, ensure, if_pos hzero]
    rfl

/-- **The CIEs of the FDEs that are alive.** -/
theorem machoLiveEhFrameCies_spec (hcies : CiesFound entries)
    (liveFdes : Nat → Bool) : ∃ cies, machoLiveEhFrameCies data liveFdes = .ok cies ∧
      ∀ bounds ∈ entries, bounds.ciePointer = 0 →
        (bounds.start ∈ cies ↔ Stays entries liveFdes bounds) := by
  have hall : ∀ fde ∈ entries.filter (fun bounds => bounds.ciePointer ≠ 0 ∧
      liveFdes bounds.start = true), ∃ cie, cieOf entries fde = .ok cie := by
    intro fde hfde
    obtain ⟨hmem, hfde⟩ := mem_filter.mp hfde
    obtain ⟨cie, hcie, hdesignates⟩ := hcies fde hmem (of_decide_eq_true hfde).1
    exact ⟨cie, (cieOf_eq_ok_iff h).mpr ⟨hcie, hdesignates⟩⟩
  obtain ⟨cies, hrun⟩ := exists_mapM_eq_ok hall
  refine ⟨cies.map (·.start), ?_, fun bounds hbounds hzero => ?_⟩
  · rw [machoLiveEhFrameCies, h, ok_bind, hrun]
    rfl
  · rw [Stays, if_pos hzero, List.mem_map]
    constructor
    · rintro ⟨cie, hcie, hstart⟩
      obtain ⟨fde, hfde, hcall⟩ := (mem_of_mapM_eq_ok hrun cie).mp hcie
      obtain ⟨hmem, hlive⟩ := mem_filter.mp hfde
      obtain ⟨hcie, hdesignates⟩ := (cieOf_eq_ok_iff h).mp hcall
      obtain rfl := eq_of_start_eq h hcie hbounds hstart
      exact ⟨fde, hmem, (of_decide_eq_true hlive).1, (of_decide_eq_true hlive).2, hdesignates⟩
    · rintro ⟨fde, hmem, hne, hlive, hdesignates⟩
      exact ⟨bounds, (mem_of_mapM_eq_ok hrun bounds).mpr ⟨fde, mem_filter.mpr
        ⟨hmem, decide_eq_true ⟨hne, hlive⟩⟩, (cieOf_eq_ok_iff h).mpr ⟨hbounds, hdesignates⟩⟩, rfl⟩

end

/-! ## 2. What is deleted -/

/-- The entries that are not kept. -/
def deadRanges (keep : Nat → Nat → Bool) (entries : List EhFrameEntryBounds) : List (Nat × Nat) :=
  (entries.filter fun bounds => !keep bounds.start bounds.ciePointer).map
    fun bounds => (bounds.start, bounds.stop - bounds.start)

/-- What is behind the entries, if it starts with a terminator. -/
def terminatorRange (data : Bytes) (stop : Nat) : List (Nat × Nat) :=
  if stop + 4 ≤ data.length then [(stop, data.length - stop)] else []

/-- The ranges, unless the number of bytes of one is too large. -/
def ifFitting (ranges : List (Nat × Nat)) : Option (List (Nat × Nat)) :=
  if ∀ range ∈ ranges, range.2 < 2 ^ 32 then some ranges else none

theorem ifFitting_cons (range : Nat × Nat) (ranges : List (Nat × Nat)) :
    ifFitting (range :: ranges)
      = if range.2 < 2 ^ 32 then (ifFitting ranges).map (range :: ·) else none := by
  have hall : (∀ r ∈ range :: ranges, r.2 < 2 ^ 32) ↔
      range.2 < 2 ^ 32 ∧ ∀ r ∈ ranges, r.2 < 2 ^ 32 := List.forall_mem_cons
  rw [ifFitting, ifFitting]
  by_cases hfirst : range.2 < 2 ^ 32
  · by_cases hrest : ∀ r ∈ ranges, r.2 < 2 ^ 32
    · rw [if_pos hfirst, if_pos (hall.mpr ⟨hfirst, hrest⟩), if_pos hrest, map_some]
    · rw [if_pos hfirst, if_neg fun h => hrest (hall.mp h).2, if_neg hrest, map_none]
  · rw [if_neg hfirst, if_neg fun h => hfirst (hall.mp h).1]

/-- The loop deletes the entries that are not kept and the terminator, if all numbers fit. -/
theorem frameDeltas_eq (keep : Nat → Nat → Bool) : ∀ {entries : List EhFrameEntryBounds}
    {offset : Nat}, entryBounds data offset = .ok entries → frameDeltas data keep offset =
      ifFitting (deadRanges keep entries ++ terminatorRange data (entriesEnd offset entries))
  | [], offset, h => by
    have hdead : deadRanges keep [] = [] := rfl
    have hstop : entriesEnd offset [] = offset := rfl
    rcases entryBounds_cases h with ⟨-, hzero⟩ | ⟨_, _, _, -, -, -, -, -, -, -, heq⟩
    · rw [frameDeltas, hdead, hstop, nil_append, terminatorRange]
      split
      · rename_i hfit
        rw [hzero hfit, bind_eq_bind, bind_some, if_pos rfl, ifFitting_cons]
        rfl
      · rfl
    · cases heq
  | bounds :: entries, offset, h => by
    rcases entryBounds_cases h with ⟨hnil, -⟩ | ⟨length, ciePointer, rest, hfit, hlength, hne, hlong,
      hstop, hpointer, hrest, heq⟩
    · cases hnil
    · cases heq
      have ih := frameDeltas_eq keep hrest
      rw [frameDeltas, if_pos hfit, hlength, bind_eq_bind, bind_some, if_neg hne,
        if_neg hlong, dif_pos hstop, hpointer, bind_some, entriesEnd_cons, deadRanges, ih]
      cases hkeep : keep offset ciePointer with
      | true => rw [if_pos rfl, filter_cons_of_neg (by simp [hkeep]), ← deadRanges]
      | false =>
        have hsize : offset + 4 + length - offset = 4 + length := by omega
        rw [if_neg Bool.false_ne_true, filter_cons_of_pos (by simp [hkeep]), map_cons,
          ← deadRanges, cons_append, ifFitting_cons]
        dsimp only
        rw [hsize, map_eq_bind]
        rfl

/-- A byte of an entry stays if the entry is kept. -/
theorem keepsByte_iff_keep (h : entryBounds data 0 = .ok entries) (keep : Nat → Nat → Bool)
    {bounds : EhFrameEntryBounds} (hbounds : bounds ∈ entries) {x : Nat} (hstart : bounds.start ≤ x)
    (hstop : x < bounds.stop) :
    KeepsByte (deadRanges keep entries ++ terminatorRange data (entriesEnd 0 entries)) x ↔
      keep bounds.start bounds.ciePointer = true := by
  obtain ⟨hspec, -, -⟩ := entryBounds_spec h
  constructor
  · intro hkeeps
    by_contra hdead
    refine hkeeps (bounds.start, bounds.stop - bounds.start) (mem_append_left _
      (List.mem_map_of_mem (mem_filter.mpr ⟨hbounds, ?_⟩))) ⟨hstart, ?_⟩
    · rw [Bool.eq_false_iff.mpr hdead, Bool.not_false]
    · dsimp only
      omega
  · rintro hkeep range hrange ⟨hle, hlt⟩
    rcases mem_append.mp hrange with hdead | hend
    · obtain ⟨other, hother, rfl⟩ := mem_map.mp hdead
      obtain ⟨hmem, hdead⟩ := mem_filter.mp hother
      dsimp only at hle hlt
      have hother := hspec other hmem
      rcases eq_or_apart h hmem hbounds with rfl | hbefore | hbehind
      · rw [hkeep] at hdead
        cases hdead
      · omega
      · omega
    · rw [terminatorRange] at hend
      split at hend
      · obtain rfl := mem_singleton.mp hend
        have := (hspec bounds hbounds).2.2
        dsimp only at hle
        omega
      · cases hend

/-! ## 3. Exactly what is alive -/

/-- What is kept of the section are the bytes of the entries that stay, and nothing from a
terminator on. -/
def KeepsExactly (deltas : List (Nat × Nat)) (data : Bytes) (entries : List EhFrameEntryBounds)
    (liveFdes : Nat → Bool) : Prop :=
  (∀ bounds ∈ entries, ∀ x, bounds.start ≤ x → x < bounds.stop →
    (KeepsByte deltas x ↔ Stays entries liveFdes bounds)) ∧
  ∀ x, entriesEnd 0 entries + 4 ≤ data.length → entriesEnd 0 entries ≤ x → x < data.length →
    ¬ KeepsByte deltas x

/-- What has to be deleted at once has a number of bytes of 32 bits. -/
def DeletionsFit (data : Bytes) (entries : List EhFrameEntryBounds) (liveFdes : Nat → Bool) :
    Prop :=
  (∀ bounds ∈ entries, ¬ Stays entries liveFdes bounds → bounds.stop - bounds.start < 2 ^ 32) ∧
  (entriesEnd 0 entries + 4 ≤ data.length → data.length - entriesEnd 0 entries < 2 ^ 32)

/-- **The compaction is exact if the deletions fit.** -/
theorem keepsExactly_iff {link : Link} {rawSectionData : Nat → Nat → Option Bytes}
    {u : UnwindState} {object : Object} {file sectionIndex : Nat} {header : SectionHeader}
    (hstrips : link.stripsAtoms object = true)
    (hsection : sectionByName object "__eh_frame".toList = some (sectionIndex, header))
    (hloaded : u.base.loaded file sectionIndex = true)
    (hdata : rawSectionData file sectionIndex = some data)
    (h : entryBounds data 0 = .ok entries) (hcies : CiesFound entries) :
    KeepsExactly (compactMachoEhFrame link rawSectionData u object file) data entries
        (u.liveEhFrameFdes file sectionIndex) ↔
      DeletionsFit data entries (u.liveEhFrameFdes file sectionIndex) := by
  obtain ⟨cies, hrun, hmem⟩ :=
    machoLiveEhFrameCies_spec h hcies (u.liveEhFrameFdes file sectionIndex)
  obtain ⟨hspec, -, -⟩ := entryBounds_spec h
  generalize hkeep : (fun offset ciePointer => if ciePointer = 0 then cies.contains offset
    else u.liveEhFrameFdes file sectionIndex offset) = keep
  have hstays : ∀ bounds ∈ entries, keep bounds.start bounds.ciePointer = true ↔
      Stays entries (u.liveEhFrameFdes file sectionIndex) bounds := by
    intro bounds hbounds
    rw [← hkeep]
    dsimp only
    split
    · rename_i hzero
      rw [contains_iff_mem, hmem bounds hbounds hzero]
    · rename_i hne
      rw [Stays, if_neg hne]
  have hdeltas : compactMachoEhFrame link rawSectionData u object file
      = (frameDeltas data keep 0).getD [] := by
    rw [compactMachoEhFrame, hsection]
    dsimp only
    rw [if_neg (by rw [hloaded]; exact Bool.true_eq_false.mp), hdata]
    dsimp only
    rw [if_pos hstrips, hrun, ← hkeep]
  have hfits : (∀ range ∈ deadRanges keep entries ++ terminatorRange data (entriesEnd 0 entries),
      range.2 < 2 ^ 32) ↔ DeletionsFit data entries (u.liveEhFrameFdes file sectionIndex) := by
    rw [forall_mem_append, DeletionsFit, deadRanges, List.forall_mem_map]
    refine and_congr ⟨fun hall bounds hb hdead => ?_, fun hall bounds hb => ?_⟩ ?_
    · refine hall bounds (mem_filter.mpr ⟨hb, ?_⟩)
      rw [Bool.eq_false_iff.mpr fun htrue => hdead ((hstays bounds hb).mp htrue), Bool.not_false]
    · obtain ⟨hb, hdead⟩ := mem_filter.mp hb
      refine hall bounds hb fun hstay => ?_
      rw [(hstays bounds hb).mpr hstay] at hdead
      cases hdead
    · rw [terminatorRange]
      split
      · rename_i hend
        simp [hend]
      · rename_i hend
        simp [hend]
  rw [hdeltas, frameDeltas_eq keep h, ← hfits, ifFitting]
  split
  · rename_i hall
    refine iff_of_true ⟨fun bounds hb x hstart hstop => ?_, fun x hend hle hlt hkeeps => ?_⟩ hall
    · rw [getD_some, keepsByte_iff_keep h keep hb hstart hstop, hstays bounds hb]
    · refine hkeeps (entriesEnd 0 entries, data.length - entriesEnd 0 entries)
        (mem_append_right _ ?_) ⟨hle, ?_⟩
      · rw [terminatorRange, if_pos hend]
        exact mem_singleton_self _
      · dsimp only
        omega
  · rename_i hall
    refine iff_of_false (fun hexact => hall ?_) hall
    -- nothing is deleted, so nothing had to be
    have hkeeps : ∀ x, KeepsByte ([] : List (Nat × Nat)) x :=
      fun x range hrange => absurd hrange not_mem_nil
    refine hfits.mpr ⟨fun bounds hb hdead => ?_, fun hend => ?_⟩
    · exact absurd ((hexact.1 bounds hb bounds.start (Nat.le_refl _) (hspec bounds hb).2.1).mp
        (hkeeps _)) hdead
    · exact absurd (hkeeps _) (hexact.2 (entriesEnd 0 entries) hend (Nat.le_refl _) (by omega))

end Srs.MachO.UnwindMetadata
