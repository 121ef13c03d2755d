/-
# Exception frames in the layout

An `.eh_frame` section holds CIEs and FDEs.  Every CIE is written, and an FDE is written if the
section it describes is loaded.  The layout finds the sections of the FDEs when an object is
activated (`process_eh_frame_relocations` in `elf.rs`), before it is known which sections are
loaded: an FDE is put at the front of a chain that starts in the slot of its section, and the chain
is followed when the section is loaded (`process_section_exception_frames`).  So what the layout
allocates is the size of the CIEs, of what is left behind the last entry, and of the FDEs whose
section is loaded and not empty (`layout_spec`).

Sizes are not bounded, except where the code has 32 bits.  The relocations of CIEs and of frames
request further sections; here the requests are any list of sections.  A relocation that cannot be
processed and a section that cannot be read end the layout and are left out.
-/
import Mathlib.Algebra.BigOperators.Group.List.Basic
import Srs.Lib.BackLinks
import Srs.Lib.LeBytes
import Srs.Lib.Records

namespace Srs.EhFrame

open LeBytes Records List

/-! ## 1. Objects and their sections -/

structure Rel where
  offset : Nat
  symbol : Option Nat
  addend : Int
  deriving DecidableEq

/-- `RelocationList`: the relocations of a section, in one of two encodings. -/
structure RelocationList where
  crel : Bool
  rels : List Rel
  deriving DecidableEq

structure Symbol where
  value : Nat
  sectionIndex : Option Nat
  deriving DecidableEq

/-- A section header, with the size in the compression header if there is one. -/
structure SectionHeader where
  shSize : Nat
  chSize : Option Nat
  deriving DecidableEq

/-- `section_size` -/
def SectionHeader.sectionSize (h : SectionHeader) : Nat := h.chSize.getD h.shSize

/-- What is read of an object file.  A section or symbol that is not there is an error. -/
structure File where
  sectionHeader : Nat → Option SectionHeader
  symbol : Nat → Option Symbol
  data : Nat → Bytes
  relocations : Nat → RelocationList

inductive SectionSlot where
  | discard
  | unloaded (lastFrameIndex : Option Nat)
  | mustLoad (lastFrameIndex : Option Nat)
  | loaded (size : Nat)
  | frameData (index : Nat)
  | mergeStrings
  | unloadedDebugInfo
  | loadedDebugInfo (size : Nat)
  | noteGnuProperty (index : Nat)
  | riscvAttributes (index : Nat)
  deriving DecidableEq

/-- What `resolve_section` makes of a section.  No section is loaded yet, and none has a frame. -/
inductive ResolvedSection where
  | discard
  | unloaded
  | mustLoad
  | frameData
  | mergeStrings
  | unloadedDebugInfo
  | noteGnuProperty
  | riscvAttributes
  deriving DecidableEq

def ResolvedSection.slot (index : Nat) : ResolvedSection → SectionSlot
  | discard => .discard
  | unloaded => .unloaded none
  | mustLoad => .mustLoad none
  | frameData => .frameData index
  | mergeStrings => .mergeStrings
  | unloadedDebugInfo => .unloadedDebugInfo
  | noteGnuProperty => .noteGnuProperty index
  | riscvAttributes => .riscvAttributes index

def resolvedSlots (sections : List ResolvedSection) : List SectionSlot :=
  sections.mapIdx ResolvedSection.slot

/-- `unloaded_mut`: the frame that an unloaded section points at. -/
def SectionSlot.unloadedMut : SectionSlot → Option (Option Nat)
  | unloaded last | mustLoad last => some last
  | _ => none

def SectionSlot.withLastFrameIndex (frameIndex : Nat) : SectionSlot → SectionSlot
  | unloaded _ => unloaded (some frameIndex)
  | mustLoad _ => mustLoad (some frameIndex)
  | slot => slot

/-! ## 2. Entries of `.eh_frame` -/

structure EhFrameEntryPrefix where
  length : Nat
  cieId : Nat
  deriving DecidableEq

def prefixAt (data : Bytes) (offset : Nat) : EhFrameEntryPrefix :=
  ⟨wordOf 4 (data.drop offset), wordOf 4 (data.drop (offset + 4))⟩

/-- `size_of::<EhFrameEntryPrefix>()` -/
def prefixLen : Nat := 8

/-- The offset of the pc_begin field in an FDE. -/
def fdePcBeginOffset : Nat := 8

/-- The entries of a section: a length, and that many bytes after it. -/
def entryFormat (data : Bytes) : Format :=
  ⟨prefixLen, fun offset => 4 + (prefixAt data offset).length, fun _ => by omega⟩

/-! ## 3. What the layout does -/

inductive LayoutError where
  | invalidEhFrame
  | unreadable
  | panic
  | discardedSection (index : Nat)
  deriving DecidableEq

structure CieAtOffset where
  offset : Nat
  bytes : Bytes
  deriving DecidableEq

structure ExceptionFrame where
  frameSize : Nat
  previousFrameForSection : Option Nat
  ehFrameSectionIndex : Nat
  deriving DecidableEq

/-- `ExceptionFrames`: the frames of an object are all of one encoding. -/
structure ExceptionFrames where
  crel : Bool
  frames : List ExceptionFrame
  deriving DecidableEq

def ExceptionFrames.extend (a b : ExceptionFrames) : Except LayoutError ExceptionFrames :=
  if a.crel = b.crel then .ok ⟨a.crel, a.frames ++ b.frames⟩
  else if a.frames.isEmpty then .ok b
  else .error .panic

/-- What is allocated for an object so far.  `ehFrameHdr` is its part of the group's
`.eh_frame_hdr`. -/
structure ObjectLayoutState where
  sections : List SectionSlot
  cies : List CieAtOffset
  exceptionFrames : ExceptionFrames
  ehFrameSize : Nat
  ehFrameHdr : Nat
  deriving DecidableEq

/-- `FrameIndex::from_usize`, and `as_usize` of that: the index plus one is a `NonZeroU32`. -/
def frameIndexFromUsize (raw : Nat) : Except LayoutError Nat :=
  if (raw + 1) % 2 ^ 32 = 0 then .error .panic else .ok (raw % 2 ^ 32)

/-- The loop over the relocations of an FDE: the section of the last one at `pc_begin` that has a
symbol, and the relocations that are left. -/
def scanFdeRelocations (file : File) (offset nextOffset : Nat) :
    Option Nat → List Rel → Except LayoutError (Option Nat × List Rel)
  | sectionIndex, [] => .ok (sectionIndex, [])
  | sectionIndex, rel :: rels =>
    if rel.offset < nextOffset then
      match rel.offset - offset == fdePcBeginOffset, rel.symbol with
      | true, some index =>
        match file.symbol index with
        | some symbol => scanFdeRelocations file offset nextOffset symbol.sectionIndex rels
        | none => .error .unreadable
      | _, _ => scanFdeRelocations file offset nextOffset sectionIndex rels
    else .ok (sectionIndex, rel :: rels)

/-- The variables of `process_eh_frame_relocations`. -/
structure Scan where
  relIter : List Rel
  object : ObjectLayoutState
  exceptionFrames : List ExceptionFrame
  deriving DecidableEq

section

variable (file : File) (ehFrameSectionIndex frameIndexOffset : Nat) (data : Bytes)

def processCie (r : Record) (s : Scan) : Scan :=
  { s with
    relIter := s.relIter.dropWhile fun rel => rel.offset < r.stop
    object := { s.object with
      cies := s.object.cies ++ [⟨r.start % 2 ^ 32, (data.take r.stop).drop r.start⟩] } }

def processFde (r : Record) (s : Scan) : Except LayoutError Scan := do
  let (sectionIndex, rels) ← scanFdeRelocations file r.start r.stop none s.relIter
  match sectionIndex with
  | none => .ok { s with relIter := rels }
  | some sectionIndex =>
    match s.object.sections[sectionIndex]? with
    | none => .error .panic
    | some slot =>
      match slot.unloadedMut with
      | none => .ok { s with relIter := rels }
      | some previous =>
        let frameIndex ← frameIndexFromUsize (frameIndexOffset + s.exceptionFrames.length)
        .ok {
          relIter := rels
          object := { s.object with
            sections := s.object.sections.set sectionIndex (slot.withLastFrameIndex frameIndex) }
          exceptionFrames := s.exceptionFrames ++
            [⟨r.size % 2 ^ 32, previous, ehFrameSectionIndex⟩] }

def processEntry (r : Record) (s : Scan) : Except LayoutError Scan :=
  if (prefixAt data r.start).cieId = 0 then .ok (processCie data r s)
  else processFde file ehFrameSectionIndex frameIndexOffset r s

def processEhFrameRelocations (relocations : List Rel) (object : ObjectLayoutState) :
    Except LayoutError (ObjectLayoutState × List ExceptionFrame) := do
  let (offset, s) ← walk (entryFormat data) data.length .invalidEhFrame
    (processEntry file ehFrameSectionIndex frameIndexOffset data) 0 ⟨relocations, object, []⟩
  -- crtend.o has a single u32 equal to 0 as an end marker
  .ok ({ s.object with ehFrameSize := s.object.ehFrameSize + (data.length - offset) },
    s.exceptionFrames)

end

def loadExceptionFrameData (file : File) (ehFrameSectionIndex : Nat) (object : ObjectLayoutState) :
    Except LayoutError ObjectLayoutState := do
  let relocations := file.relocations ehFrameSectionIndex
  let (object, frames) ← processEhFrameRelocations file ehFrameSectionIndex
    object.exceptionFrames.frames.length (file.data ehFrameSectionIndex) relocations.rels object
  let exceptionFrames ← object.exceptionFrames.extend ⟨relocations.crel, frames⟩
  .ok { object with exceptionFrames := exceptionFrames }

/-- The `.eh_frame` sections of an object. -/
def frameSections (slots : List SectionSlot) : List Nat :=
  slots.filterMap fun
    | .frameData index => some index
    | _ => none

/-- `activate`, as far as it is about exception frames. -/
def activate (file : File) (object : ObjectLayoutState) : Except LayoutError ObjectLayoutState :=
  (frameSections object.sections).foldlM (fun object i => loadExceptionFrameData file i object)
    object

/-- `size_of::<EhFrameHdrEntry>()` -/
def ehFrameHdrEntrySize : Nat := 8

/-- `process_section_exception_frames`: the number of frames and their size. -/
def processSectionExceptionFrames (frames : List ExceptionFrame) (frameIndex : Option Nat) :
    Except LayoutError (Nat × Nat) :=
  match BackLinks.follow ExceptionFrame.previousFrameForSection frames frames.length frameIndex with
  | some chain => .ok (chain.length, (chain.map ExceptionFrame.frameSize).sum)
  | none => .error .panic

def nonEmptySectionLoaded (shouldWriteEhFrameHdr : Bool) (lastFrameIndex : Option Nat)
    (object : ObjectLayoutState) : Except LayoutError ObjectLayoutState := do
  let (numFrames, size) ← processSectionExceptionFrames object.exceptionFrames.frames lastFrameIndex
  .ok { object with
    ehFrameSize := object.ehFrameSize + size
    ehFrameHdr := object.ehFrameHdr +
      if shouldWriteEhFrameHdr then ehFrameHdrEntrySize * numFrames else 0 }

def loadSection (file : File) (shouldWriteEhFrameHdr : Bool) (lastFrameIndex : Option Nat)
    (sectionIndex : Nat) (object : ObjectLayoutState) : Except LayoutError ObjectLayoutState :=
  match file.sectionHeader sectionIndex with
  | none => .error .unreadable
  | some header => do
    let object ←
      if 0 < header.sectionSize then
        nonEmptySectionLoaded shouldWriteEhFrameHdr lastFrameIndex object
      else .ok object
    .ok { object with sections := object.sections.set sectionIndex (.loaded header.sectionSize) }

def loadDebugSection (file : File) (sectionIndex : Nat) (object : ObjectLayoutState) :
    Except LayoutError ObjectLayoutState :=
  match file.sectionHeader sectionIndex with
  | none => .error .unreadable
  | some header =>
    .ok { object with
      sections := object.sections.set sectionIndex (.loadedDebugInfo header.sectionSize) }

def handleSectionLoadRequest (file : File) (shouldWriteEhFrameHdr : Bool) (sectionIndex : Nat)
    (object : ObjectLayoutState) : Except LayoutError ObjectLayoutState :=
  match object.sections[sectionIndex]? with
  | none => .error .panic
  | some (.unloaded last) | some (.mustLoad last) =>
    loadSection file shouldWriteEhFrameHdr last sectionIndex object
  | some .unloadedDebugInfo => loadDebugSection file sectionIndex object
  | some .discard => .error (.discardedSection sectionIndex)
  | some _ => .ok object

def finaliseObjectSizes (object : ObjectLayoutState) : ObjectLayoutState :=
  { object with
    ehFrameSize := object.ehFrameSize + (object.cies.map fun cie => cie.bytes.length).sum }

/-- The layout of an object, for any section load requests that reach it. -/
def layout (file : File) (shouldWriteEhFrameHdr : Bool) (sections : List ResolvedSection)
    (requests : List Nat) : Except LayoutError ObjectLayoutState := do
  let object ← activate file ⟨resolvedSlots sections, [], ⟨false, []⟩, 0, 0⟩
  let object ← requests.foldlM
    (fun object i => handleSectionLoadRequest file shouldWriteEhFrameHdr i object) object
  .ok (finaliseObjectSizes object)

/-! ## 4. What an entry is for -/

def isCie (data : Bytes) (r : Record) : Bool := (prefixAt data r.start).cieId == 0

/-- The entries of a section. -/
def entries (data : Bytes) : List Record := records (entryFormat data) data.length 0

/-- The relocations in an entry. -/
def relsIn (rels : List Rel) (r : Record) : List Rel :=
  rels.filter fun rel => r.start ≤ rel.offset && rel.offset < r.stop

/-- The section that defines the symbol of a relocation. -/
def symbolSection (file : File) (rel : Rel) : Option Nat :=
  rel.symbol.bind fun index => (file.symbol index).bind Symbol.sectionIndex

/-- For the layout, the section of an FDE is that of its last relocation at `pc_begin`. -/
def layoutSection (file : File) (rels : List Rel) (r : Record) : Option Nat :=
  ((relsIn rels r).filter fun rel =>
    rel.offset - r.start == fdePcBeginOffset && rel.symbol.isSome).getLast?.bind
      (symbolSection file)

section

variable {file : File} {rels : List Rel}

/-- The relocations from a position on. -/
def relsFrom (rels : List Rel) (o : Nat) : List Rel := rels.filter fun rel => o ≤ rel.offset

theorem dropWhile_relsFrom (hsorted : rels.Pairwise fun a b => a.offset ≤ b.offset) {o k : Nat}
    (hk : o ≤ k) : ((relsFrom rels o).dropWhile fun rel => rel.offset < k) = relsFrom rels k := by
  unfold relsFrom
  rw [dropWhile_of_sorted Rel.offset (hsorted.filter _), List.filter_filter]
  refine filter_congr fun rel _ => ?_
  rw [Bool.eq_iff_iff]
  simp only [Bool.and_eq_true, decide_eq_true_eq]
  omega

theorem takeWhile_relsFrom (hsorted : rels.Pairwise fun a b => a.offset ≤ b.offset) (r : Record) :
    ((relsFrom rels r.start).takeWhile fun rel => rel.offset < r.stop) = relsIn rels r := by
  unfold relsFrom relsIn
  rw [takeWhile_of_sorted Rel.offset (hsorted.filter _), List.filter_filter]
  refine filter_congr fun rel _ => ?_
  rw [Bool.and_comm]

variable {result : Option Nat} {rest : List Rel}

theorem scanFdeRelocations_spec {offset nextOffset : Nat}
    (l : List Rel) : ∀ {sectionIndex : Option Nat},
    scanFdeRelocations file offset nextOffset sectionIndex l = .ok (result, rest) →
      rest = l.dropWhile (fun rel => rel.offset < nextOffset) ∧
        result = (((l.takeWhile fun rel => rel.offset < nextOffset).filter fun rel =>
          rel.offset - offset == fdePcBeginOffset && rel.symbol.isSome).getLast?.elim sectionIndex
            (symbolSection file)) := by
  induction l with
  | nil =>
    intro sectionIndex h
    cases h
    exact ⟨rfl, rfl⟩
  | cons rel l ih =>
    intro sectionIndex h
    rw [scanFdeRelocations] at h
    by_cases hlt : rel.offset < nextOffset
    · rw [if_pos hlt] at h
      rw [dropWhile_cons_of_pos (by simpa using hlt),
        takeWhile_cons_of_pos (by simpa using hlt)]
      split at h
      · next index hpc hsym =>
        split at h
        · next symbol hsymbol =>
          obtain ⟨hrest, hresult⟩ := ih h
          refine ⟨hrest, ?_⟩
          rw [hresult, filter_cons_of_pos (by simp [hpc, hsym]), getLast?_cons]
          cases hlast : ((l.takeWhile fun rel => decide (rel.offset < nextOffset)).filter fun rel =>
              rel.offset - offset == fdePcBeginOffset && rel.symbol.isSome).getLast? with
          | none => simp [symbolSection, hsym, hsymbol]
          | some last => simp
        · cases h
      · next hother =>
        obtain ⟨hrest, hresult⟩ := ih h
        refine ⟨hrest, ?_⟩
        rw [hresult, filter_cons_of_neg]
        intro hboth
        rw [Bool.and_eq_true, Option.isSome_iff_exists] at hboth
        obtain ⟨hpc, index, hsym⟩ := hboth
        exact hother index hpc hsym
    · rw [if_neg hlt] at h
      cases h
      rw [dropWhile_cons_of_neg (by simpa using hlt),
        takeWhile_cons_of_neg (by simpa using hlt)]
      exact ⟨rfl, rfl⟩

/-- **The relocations of an FDE**, if they are sorted. -/
theorem scanFdeRelocations_relsFrom (hsorted : rels.Pairwise fun a b => a.offset ≤ b.offset)
    {r : Record} (hle : r.start ≤ r.stop)
    (h : scanFdeRelocations file r.start r.stop none (relsFrom rels r.start)
      = .ok (result, rest)) :
    rest = relsFrom rels r.stop ∧ result = layoutSection file rels r := by
  obtain ⟨hrest, hresult⟩ := scanFdeRelocations_spec _ h
  refine ⟨hrest.trans (dropWhile_relsFrom hsorted hle), ?_⟩
  rw [hresult, takeWhile_relsFrom hsorted, layoutSection]
  cases ((relsIn rels r).filter fun rel =>
    rel.offset - r.start == fdePcBeginOffset && rel.symbol.isSome).getLast? <;> rfl

end

end Srs.EhFrame
