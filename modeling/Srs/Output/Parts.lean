/-
# Offsets of section parts

`layout.rs`: `layout_section_parts` walks over the output order with two cursors, one in the file
and one in memory, and gives every part of every section its offsets.  A part with data in the file
moves both cursors, a NOBITS part only the one in memory, and a part of a section without ALLOC the
one in the file; the latter parts count memory from zero, section by section.  At the start of a
LOAD segment the memory cursor is brought in step with the file cursor.

The offsets are `u64` and `usize` in the source; here they are not bounded.
-/
import Srs.Lib.Cursors
import Srs.Output.Order

namespace Srs.Alignment

open Cursors

/-! ## 1. Moving a cursor -/

variable {a b c : Alignment}

theorem bytes_dvd_alignUp (a : Alignment) (n : Nat) : a.bytes ∣ a.alignUp n := dvd_roundUp _ _

theorem le_alignUp (a : Alignment) (n : Nat) : n ≤ a.alignUp n := le_roundUp _ _

theorem alignUp_modEq {x y : Nat} (hle : a.exponent ≤ b.exponent) (h : x ≡ y [MOD b.bytes]) :
    a.alignUp x ≡ a.alignUp y [MOD b.bytes] :=
  roundUp_modEq (UInt8.le_iff_toNat_le.mp hle) h

theorem le_larger_left (a b : Alignment) : a.exponent ≤ (a.larger b).exponent := by
  unfold larger
  split
  · assumption
  · exact UInt8.le_refl _

theorem le_larger_right (a b : Alignment) : b.exponent ≤ (a.larger b).exponent := by
  unfold larger
  split
  · exact UInt8.le_refl _
  · exact UInt8.le_of_lt (UInt8.not_le.mp (by assumption))

theorem smaller_le_right (a b : Alignment) : (a.smaller b).exponent ≤ b.exponent := by
  unfold smaller
  split
  · assumption
  · exact UInt8.le_refl _

theorem smaller_of_le (h : a.exponent ≤ b.exponent) : a.smaller b = a := if_pos h

/-- `align_modulo` does what it is for. -/
theorem alignModulo_modEq (a : Alignment) (refOffset offset : Nat) :
    a.alignModulo refOffset offset ≡ refOffset [MOD a.bytes] := by
  have hpos : 0 < a.bytes := Nat.two_pow_pos _
  have hzero : a.alignUp offset % a.bytes = 0 := Nat.mod_eq_zero_of_dvd (a.bytes_dvd_alignUp offset)
  have hlt := Nat.mod_lt refOffset hpos
  unfold alignModulo
  dsimp only
  split
  · assumption
  · rename_i hne
    rw [hzero] at hne
    rw [hzero, if_pos (by omega), Nat.sub_zero, Nat.add_sub_cancel, Nat.ModEq, Nat.add_mod, hzero,
      Nat.zero_add, Nat.mod_mod, Nat.mod_mod]

theorem le_alignModulo (a : Alignment) (refOffset offset : Nat) :
    offset ≤ a.alignModulo refOffset offset := by
  have hle := a.le_alignUp offset
  unfold alignModulo
  dsimp only
  split
  · exact hle
  · exact Nat.le_add_right_of_le hle

end Srs.Alignment

namespace Srs.Output

open Srs.Dynamic (OutputKind)

/-! ## 2. Parts -/

abbrev PartId := Nat

def NUM_SINGLE_PART_SECTIONS : Nat := 47

/-- `MAX_ALIGNMENT_EXPONENT + 1`. -/
def NUM_ALIGNMENTS : Nat := 17

/-- `output_section_id::RELRO_PADDING`. -/
def RELRO_PADDING : OutputSectionId := 28

/-- The parts of a section: a regular section has one for each alignment, the largest first. -/
def partIdRange (id : OutputSectionId) : List PartId :=
  if id < NUM_SINGLE_PART_SECTIONS then [id]
  else
    (List.range NUM_ALIGNMENTS).map fun offset =>
      NUM_SINGLE_PART_SECTIONS + (id - NUM_SINGLE_PART_SECTIONS) * NUM_ALIGNMENTS + offset

theorem exponent_supported (n : Nat) :
    (UInt8.ofNat (NUM_ALIGNMENTS - 1 - n % NUM_ALIGNMENTS)).toNat
      ≤ maxAlignmentExponent.toNat := by
  have hle : NUM_ALIGNMENTS - 1 - n % NUM_ALIGNMENTS ≤ 16 := Nat.sub_le _ _
  rw [UInt8.toNat_ofNat_of_lt' (Nat.lt_of_le_of_lt hle (by decide))]
  exact hle

/-- `PartId::alignment`. -/
def partAlignment {Attributes : Type} (sections : OutputSections Attributes) (part : PartId) :
    Alignment :=
  if part < NUM_SINGLE_PART_SECTIONS then (sections.infos part).minAlignment
  else
    ⟨UInt8.ofNat (NUM_ALIGNMENTS - 1 - (part - NUM_SINGLE_PART_SECTIONS) % NUM_ALIGNMENTS),
      exponent_supported _⟩

variable {Attributes Def : Type}

/-- `OutputSectionPartMap::max_alignment` of a section's parts: the alignment of the first part
that is not empty, and at least the section's own. -/
def maxAlignment (sections : OutputSections Attributes) (sizes : PartId → Nat)
    (id : OutputSectionId) : Alignment :=
  (((partIdRange id).find? fun part => sizes part ≠ 0).elim Alignment.minimal
    (partAlignment sections)).larger (sections.infos id).minAlignment

/-! ## 3. Alignments of segments -/

structure LayoutArgs where
  loadableSegmentAlignment : Alignment
  shouldOutputPartialObject : Bool

def isLoadSegment (platform : Platform Attributes Def) (segments : List Def)
    (id : ProgramSegmentId) : Bool :=
  segments[id]?.any platform.isLoadable

/-- The map and the list that `compute_segment_alignments` works on. -/
structure SegmentAlignments where
  alignments : ProgramSegmentId → Option Alignment
  activeLoadSegments : List ProgramSegmentId

section

variable (platform : Platform Attributes Def) (sections : OutputSections Attributes)
  (segments : List Def) (args : LayoutArgs) (sizes : PartId → Nat)

def segmentAlignmentEvent (s : SegmentAlignments) : OrderEvent → SegmentAlignments
  | .segmentStart id =>
    if isLoadSegment platform segments id then
      { alignments :=
          Function.update s.alignments id
            (some ((s.alignments id).getD args.loadableSegmentAlignment))
        activeLoadSegments := s.activeLoadSegments ++ [id] }
    else s
  | .segmentEnd id => { s with activeLoadSegments := s.activeLoadSegments.filter (· ≠ id) }
  | .sectionOf id =>
    { s with
      alignments := fun segment =>
        if segment ∈ s.activeLoadSegments then
          (s.alignments segment).map (·.larger (maxAlignment sections sizes id))
        else s.alignments segment }
  | .setLocation _ => s

def computeSegmentAlignments (events : List OrderEvent) : ProgramSegmentId → Option Alignment :=
  (events.foldl (segmentAlignmentEvent platform sections segments args sizes)
    { alignments := fun _ => none, activeLoadSegments := [] }).alignments

end

/-! ## 4. The layout -/

structure OutputRecordLayout where
  fileSize : Nat
  memSize : Nat
  alignment : Alignment
  fileOffset : Nat
  memOffset : Nat

/-- A record and the part that it is for. -/
structure PlacedPart where
  sectionId : OutputSectionId
  partId : PartId
  record : OutputRecordLayout

/-- The variables of `layout_section_parts`. -/
structure LayoutState where
  fileOffset : Nat
  memOffset : Nat
  nonallocMemOffsets : OutputSectionId → Nat
  relocAllocMemOffsets : OutputSectionId → Nat
  pendingLocation : Option Nat

section

variable (platform : Platform Attributes Def) (sections : OutputSections Attributes)
  (segments : List Def) (args : LayoutArgs) (sizes : PartId → Nat)

/-- Whether the flags of the section it is merged into have ALLOC. -/
def isAllocSection (id : OutputSectionId) : Bool :=
  platform.isAlloc (sections.infos (sections.primaryOutputSection id)).sectionAttributes

/-- `has_data_in_file` of the section it is merged into. -/
def sectionHasDataInFile (id : OutputSectionId) : Bool :=
  platform.hasDataInFile (sections.infos (sections.primaryOutputSection id)).sectionAttributes

/-- The alignment that a part is given. -/
def effectiveAlignment (id : OutputSectionId) (part : PartId) : Alignment :=
  (partAlignment sections part).smaller (maxAlignment sections sizes id)

/-- The memory that a part takes; RELRO padding reaches to the end of the page. -/
def partMemSize (id : OutputSectionId) (part : PartId) (memOffset : Nat) : Nat :=
  if id = RELRO_PADDING then args.loadableSegmentAlignment.alignUp memOffset - memOffset
  else sizes part

/-- The body of the loop over a section's parts. -/
def layoutPart (id : OutputSectionId) (s : LayoutState) (part : PartId) :
    LayoutState × PlacedPart :=
  let alignment := effectiveAlignment sections sizes id part
  let memSize := partMemSize args sizes id part s.memOffset
  -- An empty part aligns too, otherwise the section could start at an unaligned address.
  let fileOffset := alignment.alignUp s.fileOffset
  if isAllocSection platform sections id then
    let fileSize := if sectionHasDataInFile platform sections id then memSize else 0
    if args.shouldOutputPartialObject then
      let partMemOffset := alignment.alignUp (s.relocAllocMemOffsets id)
      ({ s with
          fileOffset := fileOffset + fileSize
          relocAllocMemOffsets :=
            Function.update s.relocAllocMemOffsets id (partMemOffset + memSize) },
        ⟨id, part, ⟨fileSize, memSize, alignment, fileOffset, partMemOffset⟩⟩)
    else
      let memOffset := alignment.alignUp s.memOffset
      ({ s with fileOffset := fileOffset + fileSize, memOffset := memOffset + memSize },
        ⟨id, part, ⟨fileSize, memSize, alignment, fileOffset, memOffset⟩⟩)
  else
    let memOffset := alignment.alignUp (s.nonallocMemOffsets id)
    ({ s with
        fileOffset := fileOffset + memSize
        nonallocMemOffsets :=
          Function.update s.nonallocMemOffsets id (s.nonallocMemOffsets id + memSize) },
      ⟨id, part, ⟨memSize, memSize, alignment, fileOffset, memOffset⟩⟩)

def layoutParts (id : OutputSectionId) : LayoutState → List PartId → LayoutState × List PlacedPart
  | s, [] => (s, [])
  | s, part :: parts =>
    let (s, placed) := layoutPart platform sections args sizes id s part
    let (s, rest) := layoutParts id s parts
    (s, placed :: rest)

/-- One event: the state after it and the records that it writes. -/
def layoutEvent (segmentAlignments : ProgramSegmentId → Option Alignment) (s : LayoutState) :
    OrderEvent → LayoutState × List PlacedPart
  | .setLocation address => ({ s with pendingLocation := some address }, [])
  | .segmentStart id =>
    match segments[id]? with
    | none => (s, [])
    | some segmentDef =>
      if platform.isLoadable segmentDef then
        let alignment := (segmentAlignments id).getD args.loadableSegmentAlignment
        match s.pendingLocation with
        | some address =>
          ({ s with
              memOffset := address
              fileOffset := alignment.alignModulo address s.fileOffset
              pendingLocation := none }, [])
        | none =>
          let (fileOffset, memOffset) :=
            platform.alignLoadSegmentStart segmentDef alignment s.fileOffset s.memOffset
          ({ s with fileOffset := fileOffset, memOffset := memOffset }, [])
      else (s, [])
  | .segmentEnd _ => (s, [])
  | .sectionOf id =>
    let s := match (sections.infos id).location with
      | some address => { s with memOffset := address }
      | none => s
    layoutParts platform sections args sizes id s (partIdRange id)

/-- The records that each event writes. -/
def layoutEvents (segmentAlignments : ProgramSegmentId → Option Alignment) :
    LayoutState → List OrderEvent → List (List PlacedPart)
  | _, [] => []
  | s, e :: events =>
    let (s, placed) := layoutEvent platform sections segments args sizes segmentAlignments s e
    placed :: layoutEvents segmentAlignments s events

def initialLayout : LayoutState where
  fileOffset := 0
  memOffset := sections.baseAddress
  nonallocMemOffsets _ := 0
  relocAllocMemOffsets _ := 0
  pendingLocation := none

/-- `layout_section_parts`: the records in the order in which they are written to `records_out`,
event by event. -/
def layoutSectionParts (events : List OrderEvent) : List (List PlacedPart) :=
  layoutEvents platform sections segments args sizes
    (computeSegmentAlignments platform sections segments args sizes events)
    (initialLayout sections) events

end

end Srs.Output
