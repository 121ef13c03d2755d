/-
# Exception frames in the writer

`write_eh_frame_relocations` (in `elf_writer.rs`) reads an `.eh_frame` section again.  It copies
every CIE, and every FDE whose first relocation is at `pc_begin` and names a section that has an
address and is not empty; the pointer from the FDE to its CIE is rewritten, and the search table in
`.eh_frame_hdr` gets an entry.

`TableWriter` has the sizes of what is left of the group's buffers, and a log of the entries that
are written.  The relocations of an entry are applied to its copy after that, which changes neither
its place nor its size, and is left out; so are the records for incremental links.  Arithmetic on
`u32` and `u64` wraps.
-/
import Srs.EhFrame.Layout
import Srs.Relaxation.Deltas

namespace Srs.EhFrame

open LeBytes Records Relaxation

/-! ## 1. What the writer has -/

inductive WriteError where
  | invalidEhFrame
  | unreadable
  | panic
  | absolutePcBegin
  | pcBeginNotInFile
  | ciePointer
  | noCie
  | overflow
  | insufficientAllocation
  deriving DecidableEq

/-- What the writer knows of an object and its layout: `address` is what `finalise_layout` gives to
a section that has a place in the output. -/
structure WriterEnv where
  file : File
  sections : List SectionSlot
  address : Nat → Nat
  sectionRelaxDeltas : Nat → Option SectionRelaxDeltas
  ehFrameHdrAddress : Nat

/-- `section_resolutions[index].address()`; `u64::MAX` stands for no address. -/
def WriterEnv.sectionAddress (env : WriterEnv) (index : Nat) : Except WriteError (Option Nat) :=
  match env.sections[index]? with
  | none => .error .panic
  | some (.loaded _) | some (.loadedDebugInfo _) | some (.frameData _) =>
    .ok (if env.address index = 2 ^ 64 - 1 then none else some (env.address index))
  | some _ => .ok none

structure EhFrameHdrEntry where
  framePtr : Int
  frameInfoPtr : Int
  deriving DecidableEq

/-- An entry in the output, with the section and the place it comes from, and the section that an
FDE describes. -/
structure WrittenEntry where
  ehFrameSectionIndex : Nat
  inputPos : Nat
  address : Nat
  bytes : Bytes
  targetSectionIndex : Option Nat
  deriving DecidableEq

structure TableWriter where
  ehFrame : Nat
  ehFrameHdr : Nat
  ehFrameStartAddress : Nat
  hdrEntries : List EhFrameHdrEntry
  written : List WrittenEntry
  deriving DecidableEq

def TableWriter.takeEhFrameData (tw : TableWriter) (size : Nat) : Except WriteError TableWriter :=
  if tw.ehFrame < size then .error .insufficientAllocation
  else .ok { tw with ehFrame := tw.ehFrame - size }

/-- `take_eh_frame_hdr_entry`: nothing if the buffer is empty. -/
def TableWriter.takeEhFrameHdrEntry (tw : TableWriter) : Except WriteError (Option TableWriter) :=
  if tw.ehFrameHdr = 0 then .ok none
  else if tw.ehFrameHdr < ehFrameHdrEntrySize then .error .panic
  else .ok (some { tw with ehFrameHdr := tw.ehFrameHdr - ehFrameHdrEntrySize })

/-! ## 2. Writing one section -/

/-- The section that an FDE is kept for, its address, and the offset of the function in it. -/
structure FdeTarget where
  sectionIndex : Nat
  sectionAddress : Nat
  offsetInSection : Nat
  deriving DecidableEq

/-- The variables of `write_eh_frame_relocations`. -/
structure WriteState where
  relocations : List Rel
  outputPos : Nat
  ciesOffsetConversion : List (Nat × Nat)
  table : TableWriter
  deriving DecidableEq

section

variable (env : WriterEnv) (ehFrameSectionIndex : Nat) (data : Bytes)

/-- What the symbol of `pc_begin` gives. -/
def symbolTarget (rel : Rel) (symbol : Symbol) : Except WriteError (Option FdeTarget) :=
  match symbol.sectionIndex with
  | none => .error .pcBeginNotInFile
  | some sectionIndex => do
    match ← env.sectionAddress sectionIndex with
    | none => .ok none
    | some sectionAddress =>
      match env.file.sectionHeader sectionIndex with
      | none => .error .unreadable
      | some header =>
        .ok (if header.shSize = 0 then none
          else some ⟨sectionIndex, sectionAddress, ((symbol.value + rel.addend) % 2 ^ 64).toNat⟩)

/-- Whether to keep an FDE, and for which section. -/
def fdeTarget (r : Record) : List Rel → Except WriteError (Option FdeTarget)
  | [] => .ok none
  | rel :: _ =>
    if rel.offset < r.stop then
      if rel.offset - r.start == fdePcBeginOffset then
        match rel.symbol with
        | none => .error .absolutePcBegin
        | some index =>
          match env.file.symbol index with
          | none => .error .unreadable
          | some symbol => symbolTarget env rel symbol
      else .ok none
    else .ok none

/-- `checked_sub` of the CIE pointer. -/
def inputCiePos (r : Record) : Except WriteError Nat :=
  let ciePointerPos := (r.start + 4) % 2 ^ 32
  let cieId := (prefixAt data r.start).cieId
  if ciePointerPos < cieId then .error .ciePointer else .ok (ciePointerPos - cieId)

/-- `i32::try_from` -/
def toI32 (x : Int) : Except WriteError Int :=
  if -2 ^ 31 ≤ x ∧ x < 2 ^ 31 then .ok x else .error .overflow

/-- The entry of the search table, if there is a table. -/
def writeHdrEntry (target : FdeTarget) (outputPos : Nat) (tw : TableWriter) :
    Except WriteError TableWriter := do
  match ← tw.takeEhFrameHdrEntry with
  | none => .ok tw
  | some taken =>
    let outputOffset :=
      optInputToOutput (env.sectionRelaxDeltas target.sectionIndex) target.offsetInSection
    let framePtr ← toI32
      (Int.bmod (target.sectionAddress + outputOffset - env.ehFrameHdrAddress) (2 ^ 64))
    let frameInfoPtr ← toI32
      (Int.bmod (tw.ehFrameStartAddress + outputPos - env.ehFrameHdrAddress) (2 ^ 64))
    .ok { taken with hdrEntries := tw.hdrEntries ++ [⟨framePtr, frameInfoPtr⟩] }

/-- The new pointer to the CIE, from the map of the CIEs' offsets. -/
def outputCieOffset (cies : List (Nat × Nat)) (inputCiePos outputPos : Nat) :
    Except WriteError Nat :=
  match cies.lookup inputCiePos with
  | none => .error .noCie
  | some outputCiePos => .ok ((outputPos % 2 ^ 32 + 4 + 2 ^ 32 - outputCiePos) % 2 ^ 32)

/-- The copy of an entry, with another CIE pointer if it is an FDE. -/
def entryOut (r : Record) (cieOffset : Option Nat) : Bytes :=
  let bytes := (data.take r.stop).drop r.start
  match cieOffset with
  | none => bytes
  | some cieOffset => bytes.take 4 ++ leBytes 4 cieOffset ++ bytes.drop 8

/-- Copies an entry that is kept, and goes on to the relocations after it. -/
def keepEntry (r : Record) (cieOffset targetSectionIndex : Option Nat) (s : WriteState) :
    Except WriteError WriteState := do
  let table ← s.table.takeEhFrameData r.size
  .ok { s with
    relocations := s.relocations.dropWhile fun rel => rel.offset < r.stop
    outputPos := s.outputPos + r.size
    table := { table with
      written := table.written ++ [⟨ehFrameSectionIndex, r.start,
        table.ehFrameStartAddress + s.outputPos, entryOut data r cieOffset,
        targetSectionIndex⟩] } }

def writeCie (r : Record) (s : WriteState) : Except WriteError WriteState :=
  keepEntry ehFrameSectionIndex data r none none
    { s with
      ciesOffsetConversion :=
        (r.start % 2 ^ 32, s.outputPos % 2 ^ 32) :: s.ciesOffsetConversion }

def writeFde (r : Record) (s : WriteState) : Except WriteError WriteState := do
  match ← fdeTarget env r s.relocations with
  | none => .ok { s with relocations := s.relocations.dropWhile fun rel => rel.offset < r.stop }
  | some target =>
    let inputCiePos ← inputCiePos data r
    let table ← writeHdrEntry env target s.outputPos s.table
    let cieOffset ← outputCieOffset s.ciesOffsetConversion inputCiePos s.outputPos
    keepEntry ehFrameSectionIndex data r (some cieOffset) (some target.sectionIndex)
      { s with table := table }

def writeEntry (r : Record) (s : WriteState) : Except WriteError WriteState :=
  if (prefixAt data r.start).cieId = 0 then writeCie ehFrameSectionIndex data r s
  else writeFde env ehFrameSectionIndex data r s

/-- Copies what is behind the last entry; crtend.o has a single u32 equal to 0 as an end marker. -/
def writeRemaining (remaining : Nat) (s : WriteState) : Except WriteError TableWriter :=
  if 0 < remaining then do
    let table ← s.table.takeEhFrameData remaining
    .ok { table with
      ehFrameStartAddress := table.ehFrameStartAddress + (s.outputPos + remaining) }
  else .ok { s.table with ehFrameStartAddress := s.table.ehFrameStartAddress + s.outputPos }

def writeEhFrameRelocations (relocations : List Rel) (tw : TableWriter) :
    Except WriteError TableWriter := do
  let (inputPos, s) ← walk (entryFormat data) data.length .invalidEhFrame
    (writeEntry env ehFrameSectionIndex data) 0 ⟨relocations, 0, [], tw⟩
  writeRemaining (data.length - inputPos) s

end

/-- `write_object`, as far as it is about exception frames. -/
def writeObject (env : WriterEnv) (tw : TableWriter) : Except WriteError TableWriter :=
  (frameSections env.sections).foldlM
    (fun tw i => writeEhFrameRelocations env i (env.file.data i) (env.file.relocations i).rels tw)
    tw

end Srs.EhFrame
