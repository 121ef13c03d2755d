/-
# Which slots of `.rela.dyn` are free

After a link every entry that is not zero has a record or was written without one, and every changed
input keeps it so (`Invariant.step`): an entry that loses its record is zero, and one that is added
has a record that no later change drops.  So a slot without a record is free unless the link wrote
it without a record (`chosen_slots_are_free`).

Where the link did that, the slot is taken for a free one (`got_entry_is_overwritten`).
-/
import Srs.Incremental.DynamicSlots

namespace Srs.Incremental

open List Option DynamicRelocationPatch Nat UInt64

/-! ## 1. Links and runs -/

/-- The writer records the entry. -/
def GeneralWrite.isRecorded : GeneralWrite → Bool
  | absolute site .. => site.sourceSectionIndex.isSome
  | irelative site .. => site.sourceSectionIndex.isSome
  | _ => false

/-- The offsets of the entries that are written without a record. -/
def unrecordedIn : Nat → List GeneralWrite → List Nat
  | _, [] => []
  | outputOffset, write :: writes =>
    if write.isRecorded then unrecordedIn (outputOffset + RELA_ENTRY_SIZE) writes
    else outputOffset :: unrecordedIn (outputOffset + RELA_ENTRY_SIZE) writes

def unrecordedInGroups : Nat → List GeneralGroup → List Nat
  | _, [] => []
  | outputOffset, group :: groups =>
    unrecordedIn outputOffset group.writes
      ++ unrecordedInGroups (outputOffset + RELA_ENTRY_SIZE * group.slots) groups

def totalSlots (groups : List GeneralGroup) : Nat := (groups.map (·.slots)).sum

/-- A link, as far as the general part of `.rela.dyn` goes. -/
structure DynamicLink where
  relocationType : DynamicRelocationKind → UInt32
  outputOffset : Nat
  groups : List GeneralGroup
  otherSections : List SectionRecord
  otherRecords : List DynamicRelocationRecord
  otherOutput : Nat → Rela
  fits : outputOffset + RELA_ENTRY_SIZE * totalSlots groups < 2 ^ 64
  others_apart : ∀ s ∈ otherSections,
    ¬ (s.inputFile = GENERATED_SECTION_INPUT_FILE ∧ s.input = GENERATED_RELA_DYN_GENERAL)

namespace DynamicLink

variable (link : DynamicLink)

def slots : Nat := totalSlots link.groups

/-- The offsets of the entries of the part. -/
def partOffsets : List Nat :=
  (List.range link.slots).map fun i => link.outputOffset + RELA_ENTRY_SIZE * i

def unrecorded : List Nat := unrecordedInGroups link.outputOffset link.groups

def sections : List SectionRecord :=
  link.otherSections ++ recordGeneratedSection link.outputOffset (RELA_ENTRY_SIZE * link.slots)

/-- What the link leaves, if it succeeds. -/
def start : Option DynamicState := do
  let part ← writeGroups link.relocationType link.outputOffset link.groups
  some { sections := link.sections
         records := sortDedup (link.otherRecords ++ part.records)
         output := fun slot =>
           if link.outputOffset ≤ slot ∧ (slot - link.outputOffset) % RELA_ENTRY_SIZE = 0 then
             part.entries.getD ((slot - link.outputOffset) / RELA_ENTRY_SIZE)
               (link.otherOutput slot)
           else link.otherOutput slot }

end DynamicLink

namespace DynamicState

/-- The slots that a change chooses for relocations that it adds. -/
def chosenSlots (s : DynamicState) (change : InputChange) : List Nat :=
  (s.addedPatches change).map (·.record.outputOffset.toNat)

/-- The slots that have a record. -/
def used (s : DynamicState) : List Nat :=
  (s.records.filter fun record => record.size.toNat = RELA_ENTRY_SIZE).map (·.outputOffset.toNat)

def freeSlots (s : DynamicState) : List Nat :=
  freeDynamicRelocationOutputSlots s.sections
    (s.records.filter fun record => record.size.toNat = RELA_ENTRY_SIZE)

end DynamicState

/-- A link and the changes after it, each under a condition; with the slots chosen so far. -/
inductive DynamicRun (link : DynamicLink) (condition : DynamicState → InputChange → Prop) :
    DynamicState → List Nat → Prop
  | start {s : DynamicState} : link.start = some s → DynamicRun link condition s []
  | step {s s' : DynamicState} {chosen : List Nat} {change : InputChange} :
      DynamicRun link condition s chosen → condition s change → s.step change = some s' →
        DynamicRun link condition s' (chosen ++ s.chosenSlots change)

/-- The slots of one change lie in the part, are new and hold no relocation: each is empty or
belongs to a relocation that the same patches remove. -/
structure ChoosesFreeSlots (link : DynamicLink) (s : DynamicState) (chosen : List Nat)
    (change : InputChange) : Prop where
  inPart : ∀ slot ∈ s.chosenSlots change, slot ∈ link.partOffsets
  once : (chosen ++ s.chosenSlots change).Nodup
  noRelocation : ∀ slot ∈ s.chosenSlots change, s.output slot = Rela.zero ∨
    ∃ kept, s.keptPatches change = some kept ∧
      ∃ patch ∈ kept, patch.inInput = false ∧ patch.record.outputOffset.toNat = slot

/-- The change adds no more relocations than there are slots without a record in front of each
entry that the link wrote without a record. -/
def AddsInFront (link : DynamicLink) (s : DynamicState) (change : InputChange) : Prop :=
  ∀ slot ∈ link.unrecorded, slot ∉ s.used →
    (addedRelocations change s.records).length
      ≤ (link.partOffsets.filter (· ∉ s.used)).countP (· < slot)

/-! ## 2. What the writer leaves -/

theorem record_of_isRecorded {relocationType : DynamicRelocationKind → UInt32}
    {write : GeneralWrite} (h : write.isRecorded = true) (outputOffset : Nat) :
    ∃ record, write.record relocationType outputOffset = some record ∧
      record.outputOffset = ofNat outputOffset ∧ record.size.toNat = RELA_ENTRY_SIZE := by
  cases write with
  | absolute site place addend symbolIndex =>
    obtain ⟨index, hindex⟩ := isSome_iff_exists.mp h
    rw [GeneralWrite.record, recordDynamicRelocationForSection, hindex]
    exact ⟨_, rfl, rfl, rfl⟩
  | irelative site place resolverAddress =>
    obtain ⟨index, hindex⟩ := isSome_iff_exists.mp h
    rw [GeneralWrite.record, recordDynamicRelocationForSection, hindex]
    exact ⟨_, rfl, rfl, rfl⟩
  | gotEntry | tpOff | dtpMod | dtpOff | tlsDescriptor | copy => cases h

/-- The entry at a slot is zero, recorded or written without a record. -/
def SlotAccounted (records : List DynamicRelocationRecord) (unrecorded : List Nat) (slot : Nat)
    (entry : Rela) : Prop :=
  entry = Rela.zero ∨ slot ∈ unrecorded ∨ ∃ record ∈ records,
    record.outputOffset = ofNat slot ∧ record.size.toNat = RELA_ENTRY_SIZE

variable {slot : Nat}

theorem SlotAccounted.mono {records records' : List DynamicRelocationRecord}
    {unrecorded unrecorded' : List Nat} {entry : Rela}
    (h : SlotAccounted records unrecorded slot entry) (hrecords : ∀ r ∈ records, r ∈ records')
    (hunrecorded : ∀ u ∈ unrecorded, u ∈ unrecorded') :
    SlotAccounted records' unrecorded' slot entry := by
  rcases h with hzero | hmem | ⟨record, hrecord, hat⟩
  · exact .inl hzero
  · exact .inr (.inl (hunrecorded _ hmem))
  · exact .inr (.inr ⟨record, hrecords _ hrecord, hat⟩)

variable {relocationType : DynamicRelocationKind → UInt32}

theorem writeGroupFrom_spec {padding : Nat} :
    ∀ {writes : List GeneralWrite} {outputOffset slots : Nat} {part : GeneralPart},
      writeGroupFrom relocationType padding outputOffset slots writes = some part →
        part.entries.length = slots ∧ ∀ i entry, part.entries[i]? = some entry →
          SlotAccounted part.records (unrecordedIn outputOffset writes)
            (outputOffset + RELA_ENTRY_SIZE * i) entry
  | [], outputOffset, slots, part, h => by
    rw [writeGroupFrom] at h
    split at h
    · cases h
      refine ⟨length_replicate, fun i entry hi => .inl ?_⟩
      exact eq_of_mem_replicate (mem_of_getElem? hi)
    · cases h
  | write :: writes, outputOffset, 0, part, h => by cases h
  | write :: writes, outputOffset, slots + 1, part, h => by
    obtain ⟨rest, hrest, h⟩ := bind_eq_some_iff.mp h
    cases h
    obtain ⟨hlen, hall⟩ := writeGroupFrom_spec hrest
    refine ⟨by rw [length_cons, hlen], fun i entry hi => ?_⟩
    cases i with
    | zero =>
      rw [Nat.mul_zero, Nat.add_zero]
      by_cases hrecorded : write.isRecorded = true
      · obtain ⟨record, hrecord, hat⟩ :=
          @record_of_isRecorded relocationType _ hrecorded outputOffset
        exact .inr (.inr ⟨record, by simp [hrecord], hat⟩)
      · refine .inr (.inl ?_)
        rw [unrecordedIn, if_neg hrecorded]
        exact mem_cons_self
    | succ i =>
      have hplace : outputOffset + RELA_ENTRY_SIZE * (i + 1)
          = outputOffset + RELA_ENTRY_SIZE + RELA_ENTRY_SIZE * i := by
        rw [mul_succ]
        omega
      rw [hplace]
      refine (hall i entry hi).mono (fun r hr => mem_append_right _ hr) fun u hu => ?_
      rw [unrecordedIn]
      split
      · exact hu
      · exact mem_cons_of_mem _ hu

theorem writeGroups_spec :
    ∀ {groups : List GeneralGroup} {outputOffset : Nat} {part : GeneralPart},
      writeGroups relocationType outputOffset groups = some part →
        part.entries.length = totalSlots groups ∧ ∀ i entry, part.entries[i]? = some entry →
          SlotAccounted part.records (unrecordedInGroups outputOffset groups)
            (outputOffset + RELA_ENTRY_SIZE * i) entry
  | [], outputOffset, part, h => by
    cases h
    exact ⟨rfl, fun i entry hi => absurd hi (by simp)⟩
  | group :: groups, outputOffset, part, h => by
    obtain ⟨first, hfirst, h⟩ := bind_eq_some_iff.mp h
    obtain ⟨rest, hrest, h⟩ := bind_eq_some_iff.mp h
    cases h
    obtain ⟨hlen, hall⟩ := writeGroupFrom_spec hfirst
    obtain ⟨hlen', hall'⟩ := writeGroups_spec hrest
    refine ⟨by rw [length_append, hlen, hlen', totalSlots, totalSlots, map_cons,
      sum_cons], fun i entry hi => ?_⟩
    rcases lt_or_ge i first.entries.length with hlt | hge
    · rw [getElem?_append_left hlt] at hi
      exact (hall i entry hi).mono (fun r hr => mem_append_left _ hr)
        fun u hu => mem_append_left _ hu
    · rw [getElem?_append_right hge] at hi
      have hplace : outputOffset + RELA_ENTRY_SIZE * i
          = outputOffset + RELA_ENTRY_SIZE * group.slots
            + RELA_ENTRY_SIZE * (i - first.entries.length) := by
        rw [hlen, Nat.mul_sub]
        have := mul_le_mul_left RELA_ENTRY_SIZE (hlen ▸ hge)
        omega
      rw [hplace]
      exact (hall' _ entry hi).mono (fun r hr => mem_append_right _ hr)
        fun u hu => mem_append_right _ hu

/-! ## 3. Free slots -/

namespace DynamicLink

variable {link : DynamicLink}

theorem lt_of_mem_partOffsets {slot : Nat} (h : slot ∈ link.partOffsets) : slot < 2 ^ 64 := by
  obtain ⟨i, hi, rfl⟩ := mem_map.mp h
  have hlt : i < link.slots := mem_range.mp hi
  have hle := mul_le_mul_left RELA_ENTRY_SIZE hlt.le
  exact lt_of_le_of_lt (Nat.add_le_add_left hle _) link.fits

theorem partOffsets_pairwise (link : DynamicLink) : link.partOffsets.Pairwise (· < ·) := by
  refine pairwise_map.mpr (pairwise_lt_range.imp fun h => ?_)
  exact Nat.add_lt_add_left (Nat.mul_lt_mul_of_pos_left h (by decide)) _

theorem partSlots_general (link : DynamicLink) :
    (recordGeneratedSection link.outputOffset (RELA_ENTRY_SIZE * link.slots)).flatMap partSlots
      = link.partOffsets := by
  have hfits : link.outputOffset + RELA_ENTRY_SIZE * link.slots < 2 ^ 64 := link.fits
  have hslots : RELA_ENTRY_SIZE * link.slots < 2 ^ 64 := lt_of_le_of_lt (le_add_left _ _) hfits
  have hoffset : link.outputOffset < 2 ^ 64 := lt_of_le_of_lt (le_add_right _ _) hfits
  rw [recordGeneratedSection]
  split
  · rename_i hzero
    have hnone : link.slots = 0 := by
      rcases Nat.mul_eq_zero.mp hzero with h | h
      · cases h
      · exact h
    rw [partOffsets, hnone]
    rfl
  · rw [flatMap_singleton, partSlots]
    simp only [toNat_ofNat_of_lt' hslots, toNat_ofNat_of_lt' hoffset]
    rw [if_pos hfits, Nat.mul_div_cancel_left _ (by decide)]
    rfl

theorem filter_sections (link : DynamicLink) :
    (link.sections.filter fun s =>
      s.inputFile = GENERATED_SECTION_INPUT_FILE ∧ s.input = GENERATED_RELA_DYN_GENERAL)
      = recordGeneratedSection link.outputOffset (RELA_ENTRY_SIZE * link.slots) := by
  rw [sections, filter_append]
  have hothers : (link.otherSections.filter fun s =>
      s.inputFile = GENERATED_SECTION_INPUT_FILE ∧ s.input = GENERATED_RELA_DYN_GENERAL) = [] := by
    refine filter_eq_nil_iff.mpr fun s hs => ?_
    rw [decide_eq_true_iff]
    exact link.others_apart s hs
  rw [hothers, nil_append, filter_eq_self]
  intro s hs
  rw [recordGeneratedSection] at hs
  split at hs
  · cases hs
  · obtain rfl := mem_singleton.mp hs
    rfl

/-- The free slots are the entries of the part that no record names, in their order. -/
theorem freeSlots_eq {s : DynamicState} (h : s.sections = link.sections) :
    s.freeSlots = link.partOffsets.filter (· ∉ s.used) := by
  rw [DynamicState.freeSlots, freeDynamicRelocationOutputSlots, h, filter_sections,
    ← filter_flatMap, partSlots_general, sortedByKey]
  exact ((partOffsets_pairwise link).filter _ |>.imp fun h => le_of_lt h).insertionSort_eq

end DynamicLink

theorem lt_of_mem_take {l : List Nat} {u : Nat} : ∀ {k : Nat}, l.Pairwise (· < ·) →
    k ≤ l.countP (· < u) → ∀ x ∈ l.take k, x < u := by
  induction l with
  | nil => intro k _ _ x hx; simp at hx
  | cons a l ih =>
    intro k hsorted hk x hx
    obtain ⟨hfirst, hrest⟩ := pairwise_cons.mp hsorted
    cases k with
    | zero => cases hx
    | succ k =>
      by_cases ha : a < u
      · rw [countP_cons_of_pos (by simpa using ha)] at hk
        rcases mem_cons.mp hx with rfl | hx
        · exact ha
        · exact ih hrest (le_of_succ_le_succ hk) x hx
      · have hnone : (a :: l).countP (· < u) = 0 := by
          refine countP_eq_zero.mpr fun b hb => ?_
          rw [decide_eq_true_iff]
          rcases mem_cons.mp hb with rfl | hb
          · exact ha
          · exact fun hlt => ha ((hfirst b hb).trans hlt)
        omega

/-! ## 4. Patches -/

/-- What holds of every patch of an added relocation. -/
structure DynamicRelocationPatch.IsAdded (patch : DynamicRelocationPatch) : Prop where
  inInput : patch.inInput = true
  isNew : patch.isNew = true
  restorable : patch.record.hasRestorableRelaOutputInfo = true

variable {inputFilePath : Text}

theorem addedPatch_spec {added : AddedRelocation}
    {patch : DynamicRelocationPatch} (h : addedPatch inputFilePath added slot = some patch) :
    patch.record.outputOffset = ofNat slot ∧ patch.IsAdded := by
  obtain ⟨referenceOffset, -, h⟩ := bind_eq_some_iff.mp h
  obtain ⟨rInfo, -, h⟩ := bind_eq_some_iff.mp h
  obtain ⟨rOffset, -, h⟩ := bind_eq_some_iff.mp h
  cases h
  exact ⟨rfl, rfl, rfl, rfl⟩

theorem placeAdded_isAdded : ∀ {added : List AddedRelocation}
    {slots : List Nat}, ∀ patch ∈ placeAdded inputFilePath added slots, patch.IsAdded
  | [], _, patch, h => by cases h
  | added :: rest, [], patch, h => by cases h
  | added :: rest, slot :: slots, patch, h => by
    rcases mem_append.mp h with h | h
    · exact (addedPatch_spec (mem_toList.mp h)).2
    · exact placeAdded_isAdded patch h

/-- The slots are taken in order, at most one for each relocation. -/
theorem placeAdded_slots {inputFilePath : Text} : ∀ {added : List AddedRelocation}
    {slots : List Nat}, (∀ slot ∈ slots, slot < 2 ^ 64) →
      ((placeAdded inputFilePath added slots).map (·.record.outputOffset.toNat)).Sublist
        (slots.take added.length)
  | [], _, _ => nil_sublist _
  | added :: rest, [], _ => nil_sublist _
  | added :: rest, slot :: slots, h => by
    have ih := @placeAdded_slots inputFilePath rest slots
      fun x hx => h x (mem_cons_of_mem _ hx)
    rw [placeAdded, map_append, length_cons, take_succ_cons]
    cases hpatch : addedPatch inputFilePath added slot with
    | none => exact ih.cons slot
    | some patch =>
      have hslot : patch.record.outputOffset.toNat = slot := by
        rw [(addedPatch_spec hpatch).1, toNat_ofNat_of_lt' (h slot mem_cons_self)]
      rw [toList_some, map_singleton, hslot]
      exact ih.cons_cons slot

/-- The patch clears its slot. -/
def DynamicRelocationPatch.Clears (patch : DynamicRelocationPatch) : Prop :=
  patch.entry = Rela.zero ∧ patch.preserveHead = false

theorem dynamicRelocationPatch_spec {sections : List RelaSection}
    {record : DynamicRelocationRecord} {patch : DynamicRelocationPatch}
    (h : dynamicRelocationPatch sections record = some (some patch)) :
    patch.record = record ∧ record.size.toNat = RELA_ENTRY_SIZE ∧
      (patch.inInput = false → patch.Clears) := by
  rw [dynamicRelocationPatch] at h
  split at h
  · cases h
  · rename_i hsize
    have hsize := not_not.mp hsize
    split at h
    · cases h
    · cases h
      exact ⟨rfl, hsize, fun _ => ⟨rfl, rfl⟩⟩
    · split at h
      · cases h
        exact ⟨rfl, hsize, fun hin => by cases hin⟩
      · cases h
        exact ⟨rfl, hsize, fun hin => by cases hin⟩

/-- A patch of a record that is kept is that of the record. -/
theorem dynamicRelocationPatchesForInput_spec {archiveInput : Text → Option ObjectInput} :
    ∀ {records : List DynamicRelocationRecord} {patches : List DynamicRelocationPatch},
      dynamicRelocationPatchesForInput archiveInput records = some patches →
        ∀ patch ∈ patches, patch.record ∈ records ∧ ∃ sections,
          archiveInput patch.record.input = some (some sections) ∧
            dynamicRelocationPatch sections patch.record = some (some patch)
  | [], patches, h, patch, hpatch => by
    cases h
    cases hpatch
  | record :: records, patches, h, patch, hpatch => by
    obtain ⟨rest, hrest, h⟩ := bind_eq_some_iff.mp h
    have ih : patch ∈ rest → patch.record ∈ record :: records ∧ ∃ sections,
        archiveInput patch.record.input = some (some sections) ∧
          dynamicRelocationPatch sections patch.record = some (some patch) := by
      intro hmem
      obtain ⟨hrecord, hsections⟩ := dynamicRelocationPatchesForInput_spec hrest patch hmem
      exact ⟨mem_cons_of_mem _ hrecord, hsections⟩
    split at h
    · rename_i sections hinput
      obtain ⟨first, hfirst, h⟩ := bind_eq_some_iff.mp h
      cases h
      rcases mem_append.mp hpatch with hmem | hmem
      · obtain rfl := mem_toList.mp hmem
        obtain ⟨hrecord, -, -⟩ := dynamicRelocationPatch_spec hfirst
        rw [hrecord]
        exact ⟨mem_cons_self, sections, hinput, hfirst⟩
      · exact ih hmem
    · cases h
      exact ih hpatch

/-- A slot that no patch is for is unchanged; one that only clearing patches are for is zero. -/
theorem foldl_apply_at (slot : Nat) : ∀ (patches : List DynamicRelocationPatch)
    (output : Nat → Rela),
    (patches.foldl apply output slot = output slot ∧
      ∀ patch ∈ patches, patch.record.outputOffset.toNat ≠ slot) ∨
    patches.foldl apply output slot = Rela.zero ∨
    ∃ patch ∈ patches, patch.record.outputOffset.toNat = slot ∧ ¬ patch.Clears
  | [], output => .inl ⟨rfl, fun _ h => by cases h⟩
  | patch :: patches, output => by
    rw [foldl_cons]
    rcases foldl_apply_at slot patches (patch.apply output) with ⟨hsame, hnone⟩ | hzero | hsome
    · by_cases hat : patch.record.outputOffset.toNat = slot
      · refine .inr ?_
        by_cases hclears : patch.Clears
        · refine .inl ?_
          rw [hsame, apply, hat, Function.update_self, hclears.2]
          exact hclears.1
        · exact .inr ⟨patch, mem_cons_self, hat, hclears⟩
      · refine .inl ⟨?_, ?_⟩
        · rw [hsame, apply, Function.update_of_ne (Ne.symm hat)]
        · intro other hother
          rcases mem_cons.mp hother with rfl | hother
          · exact hat
          · exact hnone other hother
    · exact .inr (.inl hzero)
    · obtain ⟨other, hother, hrest⟩ := hsome
      exact .inr (.inr ⟨other, mem_cons_of_mem _ hother, hrest⟩)

/-! ## 5. The invariant -/

/-- Every entry of the part is accounted for, and no slot is lost that was chosen before. -/
structure DynamicState.Invariant (link : DynamicLink) (s : DynamicState) (chosen : List Nat) :
    Prop where
  sections : s.sections = link.sections
  accounted : ∀ slot ∈ link.partOffsets,
    SlotAccounted s.records link.unrecorded slot (s.output slot)
  chosenRecorded : ∀ slot ∈ chosen, ∃ record ∈ s.records,
    record.outputOffset.toNat = slot ∧ record.hasRestorableRelaOutputInfo = true
  chosenOnce : chosen.Nodup

theorem DynamicRelocationRecord.size_of_restorable {record : DynamicRelocationRecord}
    (h : record.hasRestorableRelaOutputInfo = true) : record.size.toNat = RELA_ENTRY_SIZE :=
  (of_decide_eq_true h).1

namespace DynamicState

variable {link : DynamicLink} {s s' : DynamicState} {chosen : List Nat} {change : InputChange}

variable {record : DynamicRelocationRecord} {patch : DynamicRelocationPatch}
  {patches : List DynamicRelocationPatch}

theorem mem_used (h : record ∈ s.records)
    (hsize : record.size.toNat = RELA_ENTRY_SIZE) : record.outputOffset.toNat ∈ s.used :=
  List.mem_map_of_mem (mem_filter.mpr ⟨h, decide_eq_true hsize⟩)

theorem start_invariant (h : link.start = some s) : s.Invariant link [] := by
  obtain ⟨part, hpart, h⟩ := bind_eq_some_iff.mp h
  cases h
  obtain ⟨hlen, hall⟩ := writeGroups_spec hpart
  refine ⟨rfl, fun slot hslot => ?_, fun slot hslot => absurd hslot not_mem_nil,
    nodup_nil⟩
  obtain ⟨i, hi, rfl⟩ := mem_map.mp hslot
  have hlt : i < part.entries.length := by
    rw [hlen]
    exact mem_range.mp hi
  have hentry : part.entries.getD i (link.otherOutput (link.outputOffset + RELA_ENTRY_SIZE * i))
      = part.entries[i] := by
    rw [getD_eq_getElem?_getD, getElem?_eq_getElem hlt, getD_some]
  have haccounted := hall i _ (getElem?_eq_getElem hlt)
  dsimp only
  rw [Nat.add_sub_cancel_left, Nat.mul_mod_right, Nat.mul_div_cancel_left _ (by decide),
    if_pos ⟨le_add_right _ _, rfl⟩, hentry]
  refine haccounted.mono (fun r hr => ?_) fun u hu => hu
  exact mem_sortDedup.mpr (mem_append_right _ hr)

/-- The slots of added relocations come from the front of the free ones. -/
theorem chosenSlots_sublist (hs : s.sections = link.sections) :
    (s.chosenSlots change).Sublist
      ((link.partOffsets.filter (· ∉ s.used)).take (addedRelocations change s.records).length) := by
  have hfree := DynamicLink.freeSlots_eq hs
  rw [freeSlots] at hfree
  rw [chosenSlots, addedPatches, addedDynamicRelocationPatchesForInput, hfree]
  refine placeAdded_slots fun slot hslot => ?_
  exact DynamicLink.lt_of_mem_partOffsets (mem_of_mem_filter hslot)

theorem mem_of_mem_chosenSlots (hs : s.sections = link.sections) {slot : Nat}
    (h : slot ∈ s.chosenSlots change) : slot ∈ link.partOffsets ∧ slot ∉ s.used := by
  have hfront := mem_of_mem_take ((chosenSlots_sublist hs).subset h)
  obtain ⟨hmem, hfree⟩ := mem_filter.mp hfront
  exact ⟨hmem, of_decide_eq_true hfree⟩

/-- **Under the invariant the slots of one change hold no relocation.** -/
theorem Invariant.choosesFreeSlots (hs : s.Invariant link chosen) (h : AddsInFront link s change) :
    ChoosesFreeSlots link s chosen change := by
  refine ⟨fun slot hslot => (mem_of_mem_chosenSlots hs.sections hslot).1, ?_, fun slot hslot => ?_⟩
  · have hsorted := ((DynamicLink.partOffsets_pairwise link).filter (· ∉ s.used)).imp
      fun hlt => ne_of_lt hlt
    have hnodup : (s.chosenSlots change).Nodup :=
      ((chosenSlots_sublist hs.sections).trans (take_sublist _ _)).nodup hsorted
    refine nodup_append.mpr ⟨hs.chosenOnce, hnodup, ?_⟩
    rintro slot hchosen _ hslot rfl
    obtain ⟨record, hrecord, rfl, hrestorable⟩ := hs.chosenRecorded slot hchosen
    have hsize := DynamicRelocationRecord.size_of_restorable hrestorable
    exact (mem_of_mem_chosenSlots hs.sections hslot).2 (mem_used hrecord hsize)
  · obtain ⟨hpart, hunused⟩ := mem_of_mem_chosenSlots hs.sections hslot
    rcases hs.accounted slot hpart with hzero | hunrecorded | ⟨record, hrecord, hat, hsize⟩
    · exact .inl hzero
    · have hsorted := (DynamicLink.partOffsets_pairwise link).filter (· ∉ s.used)
      have hlt := lt_of_mem_take hsorted (h slot hunrecorded hunused) slot
        ((chosenSlots_sublist hs.sections).subset hslot)
      exact absurd hlt (lt_irrefl slot)
    · have hused := mem_used hrecord hsize
      rw [hat, toNat_ofNat_of_lt' (DynamicLink.lt_of_mem_partOffsets hpart)] at hused
      exact absurd hused hunused

theorem addedPatches_isAdded : ∀ patch ∈ s.addedPatches change, patch.IsAdded :=
  fun patch hpatch => placeAdded_isAdded patch hpatch

variable {kept : List DynamicRelocationPatch}

/-- The patches of one change: each is that of a record, or of an added relocation. -/
theorem patch_cases (hkept : s.keptPatches change = some kept)
    (h : patch ∈ kept ++ s.addedPatches change) :
    patch.IsAdded ∨ (patch.record ∈ s.records ∧ patch.record.size.toNat = RELA_ENTRY_SIZE ∧
      (patch.inInput = false → patch.Clears) ∧ ∃ sections,
        change.archiveInput patch.record.input = some (some sections) ∧
          dynamicRelocationPatch sections patch.record = some (some patch)) := by
  rcases mem_append.mp h with h | h
  · obtain ⟨hrecord, sections, hinput, hpatch⟩ :=
      dynamicRelocationPatchesForInput_spec hkept patch h
    obtain ⟨-, hsize, hclears⟩ := dynamicRelocationPatch_spec hpatch
    exact .inr ⟨mem_of_mem_filter hrecord, hsize, hclears, sections, hinput, hpatch⟩
  · exact .inl (addedPatches_isAdded patch h)

theorem mem_recordsAfter_of_restorable (h : record ∈ s.records)
    (hrestorable : record.hasRestorableRelaOutputInfo = true) :
    record ∈ s.recordsAfter patches := by
  rw [recordsAfter]
  refine mem_filter.mpr ⟨?_, decide_eq_true (.inr hrestorable)⟩
  split
  · exact h
  · exact mem_sortDedup.mpr (mem_append_left _ h)

theorem mem_recordsAfter_of_kept (h : record ∈ s.records)
    (hkept : ∀ patch ∈ patches, patch.record = record → patch.inInput = true) :
    record ∈ s.recordsAfter patches := by
  rw [recordsAfter]
  refine mem_filter.mpr ⟨?_, decide_eq_true (.inl ?_)⟩
  · split
    · exact h
    · exact mem_sortDedup.mpr (mem_append_left _ h)
  · intro hremoved
    obtain ⟨patch, hpatch, hrecord⟩ := mem_map.mp hremoved
    obtain ⟨hmem, hgone⟩ := mem_filter.mp hpatch
    rw [hkept patch hmem hrecord] at hgone
    cases hgone

theorem mem_recordsAfter_of_added (h : patch ∈ patches) (hadded : patch.IsAdded) :
    patch.record ∈ s.recordsAfter patches := by
  have hmem : patch.record
      ∈ (patches.filter fun patch => patch.inInput && patch.isNew).map (·.record) :=
    List.mem_map_of_mem (mem_filter.mpr ⟨h, by rw [hadded.inInput, hadded.isNew]; rfl⟩)
  rw [recordsAfter]
  refine mem_filter.mpr ⟨?_, decide_eq_true (.inr hadded.restorable)⟩
  rw [if_neg (ne_nil_of_mem hmem)]
  exact mem_sortDedup.mpr (mem_append_right _ hmem)

/-- The patches with the record of a kept patch say the same of it. -/
theorem inInput_of_record_eq
    (hkept : s.keptPatches change = some kept) (hin : patch.inInput = true)
    (hpatch : ∃ sections, change.archiveInput patch.record.input = some (some sections) ∧
      dynamicRelocationPatch sections patch.record = some (some patch)) :
    ∀ other ∈ kept ++ s.addedPatches change,
      other.record = patch.record → other.inInput = true := by
  intro other hother hrecord
  rcases patch_cases hkept hother with hadded | ⟨-, -, -, sections', hinput', hother'⟩
  · exact hadded.inInput
  · obtain ⟨sections, hinput, hpatch⟩ := hpatch
    rw [hrecord, hinput] at hinput'
    cases hinput'
    rw [hrecord, hpatch] at hother'
    rw [← some.inj (some.inj hother')]
    exact hin

/-- **A change keeps the invariant**, whatever it is: an entry that is left without a record is
cleared, and one that is written has a record. -/
theorem Invariant.step (hs : s.Invariant link chosen)
    (hchosen : ChoosesFreeSlots link s chosen change) (h : s.step change = some s') : s'.Invariant link (chosen ++ s.chosenSlots change) := by
  obtain ⟨kept, hkept, h⟩ := bind_eq_some_iff.mp h
  cases h
  refine ⟨hs.sections, fun slot hslot => ?_, fun slot hslot => ?_, hchosen.once⟩
  · have hslot64 := DynamicLink.lt_of_mem_partOffsets hslot
    -- an entry that is written has a record that stays
    have hwritten : ∀ patch ∈ kept ++ s.addedPatches change,
        patch.record.outputOffset.toNat = slot → ¬ patch.Clears →
          ∃ record ∈ s.recordsAfter (kept ++ s.addedPatches change),
            record.outputOffset = ofNat slot ∧ record.size.toNat = RELA_ENTRY_SIZE := by
      intro patch hpatch hat hkeeps
      have hoffset : patch.record.outputOffset = ofNat slot := by
        rw [← hat, UInt64.ofNat_toNat]
      rcases patch_cases hkept hpatch with hadded | ⟨hrecord, hsize, hclears, hsections⟩
      · exact ⟨patch.record, mem_recordsAfter_of_added hpatch hadded, hoffset,
          DynamicRelocationRecord.size_of_restorable hadded.restorable⟩
      · have hin : patch.inInput = true := by
          cases hin : patch.inInput with
          | false => exact absurd (hclears hin) hkeeps
          | true => rfl
        exact ⟨patch.record, mem_recordsAfter_of_kept hrecord
          (inInput_of_record_eq hkept hin hsections), hoffset, hsize⟩
    rcases foldl_apply_at slot (kept ++ s.addedPatches change) s.output with
      ⟨hsame, hnone⟩ | hzero | ⟨patch, hpatch, hat, hkeeps⟩
    · dsimp only
      rw [hsame]
      rcases hs.accounted slot hslot with hzero | hunrecorded | ⟨record, hrecord, hat, hsize⟩
      · exact .inl hzero
      · exact .inr (.inl hunrecorded)
      · refine .inr (.inr ⟨record, mem_recordsAfter_of_kept hrecord ?_, hat, hsize⟩)
        rintro patch hpatch rfl
        refine absurd ?_ (hnone patch hpatch)
        rw [hat, toNat_ofNat_of_lt' hslot64]
    · exact .inl hzero
    · exact .inr (.inr (hwritten patch hpatch hat hkeeps))
  · rcases mem_append.mp hslot with hslot | hslot
    · obtain ⟨record, hrecord, hat, hrestorable⟩ := hs.chosenRecorded slot hslot
      exact ⟨record, mem_recordsAfter_of_restorable hrecord hrestorable, hat, hrestorable⟩
    · obtain ⟨patch, hpatch, rfl⟩ := mem_map.mp hslot
      have hadded := addedPatches_isAdded patch hpatch
      exact ⟨patch.record, mem_recordsAfter_of_added (mem_append_right _ hpatch) hadded, rfl,
        hadded.restorable⟩

end DynamicState

/-- The invariant of every run whose changes add in front of the entries without a record. -/
theorem DynamicRun.invariant {link : DynamicLink} {s : DynamicState} {chosen : List Nat}
    (run : DynamicRun link (AddsInFront link) s chosen) : s.Invariant link chosen := by
  induction run with
  | start h => exact DynamicState.start_invariant h
  | step _ hcondition hstep ih => exact ih.step (ih.choosesFreeSlots hcondition) hstep

/-- **Every slot that is chosen is free**, in every run whose changes add no more relocations than
there are slots without a record in front of each entry that the link wrote without one. -/
theorem chosen_slots_are_free {link : DynamicLink} {s : DynamicState} {chosen : List Nat}
    {change : InputChange} (run : DynamicRun link (AddsInFront link) s chosen)
    (h : AddsInFront link s change) : ChoosesFreeSlots link s chosen change :=
  run.invariant.choosesFreeSlots h

/-! ## 6. Two links -/

/-- A relocation at offset 4 of section 1, with the words of a relative place. -/
def dataWrite : GeneralWrite :=
  .absolute ⟨"input.o", "input.o", some 1, 4⟩ 0x400040 8 1

/-- A link of the groups, with nothing else in the output. -/
def linkOfGroups (groups : List GeneralGroup)
    (fits : 300 + RELA_ENTRY_SIZE * totalSlots groups < 2 ^ 64) : DynamicLink where
  relocationType := fun kind => if kind = .gotEntry then 6 else 1
  outputOffset := 300
  groups := groups
  otherSections := []
  otherRecords := []
  otherOutput := fun _ => Rela.zero
  fits := fits
  others_apart := fun _ h => absurd h not_mem_nil

/-- The relocation gets a second one behind it. -/
def secondRelocation : InputChange where
  inputFilePath := "input.o"
  archiveInput := fun input => if input = "input.o" then
    some (some [⟨1, .entries [⟨4, 0x100000001, 8⟩, ⟨6, 0x100000001, 9⟩]⟩]) else none
  currentBytes := some [⟨1, .entries [⟨4, 0x100000001, 8⟩, ⟨6, 0x100000001, 9⟩]⟩]
  previousBytes := some (some [⟨1, .entries [⟨4, 0x100000001, 8⟩]⟩])
  matchedSections := [⟨"input.o", "input.o", 1, 1⟩]

/-- A group with padding in front of the entry of the GOT. -/
def paddedLink : DynamicLink :=
  linkOfGroups [⟨[dataWrite], 2, 1⟩, ⟨[.gotEntry 0x400800 2], 1, 0⟩] (by decide)

/-- No padding. -/
def gotLink : DynamicLink := linkOfGroups [⟨[dataWrite, .gotEntry 0x400800 2], 2, 0⟩] (by decide)

instance (link : DynamicLink) (s : DynamicState) (change : InputChange) :
    Decidable (AddsInFront link s change) :=
  inferInstanceAs (Decidable (∀ slot ∈ link.unrecorded, slot ∉ s.used → _ ≤ _))

theorem paddedLink_starts : paddedLink.start.isSome = true := by decide +kernel

theorem gotLink_starts : gotLink.start.isSome = true := by decide +kernel

/-- The padding takes the added relocation. -/
theorem chosen_slots_are_free_padded :
    ∃ s, paddedLink.start = some s ∧ s.chosenSlots secondRelocation = [324] ∧
      ChoosesFreeSlots paddedLink s [] secondRelocation := by
  have hstart := (some_get paddedLink_starts).symm
  have hcondition :
      AddsInFront paddedLink (paddedLink.start.get paddedLink_starts) secondRelocation := by
    decide +kernel
  refine ⟨_, hstart, by decide +kernel, ?_⟩
  exact chosen_slots_are_free (DynamicRun.start hstart) hcondition

/-- **The entry of the GOT is taken for a free slot** where it is the only one without a record. -/
theorem got_entry_is_overwritten :
    ¬ ∀ (link : DynamicLink) (s : DynamicState) (chosen : List Nat) (change : InputChange),
      DynamicRun link (fun _ _ => True) s chosen → ChoosesFreeSlots link s chosen change := by
  intro h
  have hchosen : (gotLink.start.get gotLink_starts).chosenSlots secondRelocation = [324] := by
    decide +kernel
  have hlive : (gotLink.start.get gotLink_starts).output 324 = ⟨0x400800, 0x200000006, 0⟩ := by
    decide +kernel
  have hkept : ((gotLink.start.get gotLink_starts).keptPatches secondRelocation).map
      (·.all (·.inInput)) = some true := by
    decide +kernel
  have hrun : DynamicRun gotLink (fun _ _ => True) _ [] :=
    DynamicRun.start (some_get gotLink_starts).symm
  have hmem : 324 ∈ (gotLink.start.get gotLink_starts).chosenSlots secondRelocation := by
    rw [hchosen]
    exact mem_singleton_self 324
  rcases (h _ _ _ secondRelocation hrun).noRelocation 324 hmem with
    hzero | ⟨kept, hsome, patch, hpatch, hgone, -⟩
  · rw [hlive] at hzero
    cases hzero
  · rw [hsome] at hkept
    have hin := all_eq_true.mp (some.inj hkept) patch hpatch
    rw [hgone] at hin
    cases hin

end Srs.Incremental
