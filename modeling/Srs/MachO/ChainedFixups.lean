/-
# Chained fixups

`macho_writer.rs`: the pointers in `__DATA` that dyld has to fix form one chain a page.  A slot
holds what it points at and, packed beside it, the distance to the next slot of its page; a table in
`__LINKEDIT` says where the chain of each page starts and which imports there are.

The slots come from three sources, data relocations against local symbols, data relocations against
imports and GOT entries.  `collect` sorts them and drops those that have one address, `next_stride`
computes the distances, `write_got` and `apply_relocation` fill the slots and
`write_chained_fixup_table` writes the table.

The second part is the other side, as dyld reads an image of format `DYLD_CHAINED_PTR_64_OFFSET`.
Addresses are `u64` in the source; here they are not bounded.
-/
import Srs.Lib.LeBuffers
import Srs.Lib.SortDedup
import Srs.MachO.Failures
import Srs.Output.Parts

namespace Srs.MachO

open Buffers
open Output (OutputRecordLayout)

/-! ## 1. What is collected -/

def MACHO_START_MEM_ADDRESS : Nat := 0x1_0000_0000
def MACHO_PAGE_SIZE : Nat := 0x4000
def MACHO_GOT_ENTRY_SIZE : Nat := 8
def DEFAULT_SEGMENT_COUNT : Nat := 4
def DATA_SEGMENT_CHAIN_INDEX : Nat := 2
def DYLD_CHAINED_PTR_64_OFFSET : Nat := 6
def DYLD_CHAINED_PTR_START_NONE : Nat := 0xffff

structure ChainedBindSlot where
  address : Nat
  importIndex : Nat

/-- A GOT entry.  Its name is only for messages. -/
structure ChainedGotEntry where
  address : Nat
  target : UInt64
  importIndex : Option Nat
  name : String

/-- An import.  Names come from string tables with terminators, so they hold no zero. -/
structure ChainedImport where
  name : Bytes
  libOrdinal : UInt8
  name_nonzero : 0 ∉ name

structure ChainedRebases where
  slots : List Nat
  bindSlots : List ChainedBindSlot
  gotEntries : List ChainedGotEntry
  imports : List ChainedImport

/-- A data relocation with a slot: its place, the value that it computes and, when its target is an
import, which one. -/
structure DataFixup where
  address : Nat
  value : UInt64
  importIndex : Option Nat

/-- The end of `ChainedRebases::collect`: everything that was found is sorted, and what has one
address is dropped. -/
def ChainedRebases.ofFixups (data : List DataFixup) (got : List ChainedGotEntry)
    (imports : List ChainedImport) : ChainedRebases where
  slots := sortDedup (data.map (·.address) ++ got.map (·.address))
  bindSlots := sortedByKey (·.address)
    (data.filterMap fun fixup => fixup.importIndex.map fun index => ⟨fixup.address, index⟩)
  gotEntries := dedupByKey (·.address) (sortedByKey (·.address) got)
  imports := imports

namespace ChainedRebases

variable (chained : ChainedRebases)

/-- `contains`. -/
def contains (place : Nat) : Bool := chained.slots.any (· = place)

/-- `{:#x}`. -/
def hex (n : Nat) : String := "0x" ++ String.ofList (Nat.toDigits 16 n)

/-- `next_stride`: the distance to the next slot of the page, in units of four bytes, and zero for
the last one. -/
def nextStride (place : Nat) : Except Failure Nat :=
  match chained.slots.findIdx? (· = place) with
  | none => .ok 0
  | some index =>
    let pageStart := place / MACHO_PAGE_SIZE * MACHO_PAGE_SIZE
    match chained.slots[index + 1]? with
    | none => .ok 0
    | some next =>
      if next ≥ pageStart + MACHO_PAGE_SIZE then .ok 0
      else do
        let distance := next - place
        ensure (distance % 4 = 0)
          ("Mach-O chained fixup distance " ++ hex distance ++ " is not 4-byte aligned")
        let stride := distance / 4
        ensure (stride < 0x1000)
          ("Mach-O chained fixup distance " ++ hex distance ++ " is too large")
        .ok stride

/-- `bind_import_index`.  The source finds any entry of the address, here it is the first. -/
def bindImportIndex (place : Nat) : Option Nat :=
  (chained.bindSlots.find? (·.address = place)).map (·.importIndex)

end ChainedRebases

/-! ## 2. Filling the slots -/

def encodeChainedRebase (value nextStride : Nat) : Except Failure Nat := do
  let high8 := value >>> 56
  let address := value &&& ((1 <<< 56) - 1)
  ensure (MACHO_START_MEM_ADDRESS ≤ address)
    ("Cannot encode Mach-O chained rebase target " ++ ChainedRebases.hex value)
  let runtimeOffset := address - MACHO_START_MEM_ADDRESS
  ensure (runtimeOffset < 1 <<< 36) ("Mach-O chained rebase target "
    ++ ChainedRebases.hex runtimeOffset ++ " exceeds 36 bits")
  ensure (nextStride < 0x1000) ("Mach-O chained rebase next stride "
    ++ ChainedRebases.hex nextStride ++ " exceeds 12 bits")
  .ok (runtimeOffset ||| (high8 <<< 36) ||| (nextStride <<< 51))

def encodeChainedBind (importIndex nextStride : Nat) : Except Failure Nat := do
  ensure (importIndex < 1 <<< 24)
    ("Mach-O chained bind import index " ++ toString importIndex ++ " exceeds 24 bits")
  ensure (nextStride < 0x1000) ("Mach-O chained bind next stride "
    ++ ChainedRebases.hex nextStride ++ " exceeds 12 bits")
  .ok (importIndex ||| (nextStride <<< 51) ||| (1 <<< 63))

/-- `write_u16`, `write_u32` and `write_u64`. -/
def writeWord (n : Nat) (bytes : Bytes) (offset value : Nat) : Except Failure Bytes :=
  okOr (.error "Write past end of Mach-O chained fixup table") (writeLe n bytes offset value)

/-- `read_u16`. -/
def readWord (bytes : Bytes) (offset : Nat) : Except Failure Nat :=
  okOr (.error "Read past end of Mach-O chained fixup table") (readLe 2 bytes offset)

section

variable (chained : ChainedRebases)

/-- What `write_got` puts into the slot of an entry. -/
def encodeGotEntry (entry : ChainedGotEntry) : Except Failure Nat := do
  let nextStride ← chained.nextStride entry.address
  match entry.importIndex with
  | some importIndex => encodeChainedBind importIndex nextStride
  | none => encodeChainedRebase entry.target.toNat nextStride

/-- The loop of `write_got`. -/
def writeGotEntries (gotStart : Nat) : List ChainedGotEntry → Bytes → Except Failure Bytes
  | [], out => .ok out
  | entry :: rest, out => do
    ensure (gotStart ≤ entry.address)
      ("Mach-O GOT address " ++ ChainedRebases.hex entry.address ++ " precedes __got")
    let offset := entry.address - gotStart
    ensure (offset + MACHO_GOT_ENTRY_SIZE ≤ out.length)
      ("Mach-O GOT entry at " ++ ChainedRebases.hex entry.address ++ " is outside __got")
    let value ← encodeGotEntry chained entry
    let out ← writeWord 8 out offset value
    writeGotEntries gotStart rest out

/-- `write_got`, for the buffer of the section. -/
def writeGot (gotStart : Nat) (out : Bytes) : Except Failure Bytes :=
  let out := List.replicate out.length 0
  if out = [] then .ok out else writeGotEntries chained gotStart chained.gotEntries out

/-- What `apply_relocation` makes of the value of a data relocation. -/
def encodeDataFixup (fixup : DataFixup) : Except Failure Nat :=
  match chained.bindImportIndex fixup.address with
  | some importIndex => do
    let nextStride ← chained.nextStride fixup.address
    encodeChainedBind importIndex nextStride
  | none =>
    if chained.contains fixup.address then do
      let nextStride ← chained.nextStride fixup.address
      encodeChainedRebase fixup.value.toNat nextStride
    else .ok fixup.value.toNat

/-- The data relocations with slots, each written at its place in the segment. -/
def writeDataFixups (dataStart : Nat) : List DataFixup → Bytes → Except Failure Bytes
  | [], segment => .ok segment
  | fixup :: rest, segment => do
    let value ← encodeDataFixup chained fixup
    let segment ← writeWord 8 segment (fixup.address - dataStart) value
    writeDataFixups dataStart rest segment

end

/-! ## 3. The table -/

/-- `chained_fixup_page_count`. -/
def chainedFixupPageCount (dataStart lastSlot : Nat) : Nat :=
  (lastSlot - dataStart) / MACHO_PAGE_SIZE + 1

/-- `next_multiple_of`. -/
def nextMultipleOf (n m : Nat) : Nat := (n + m - 1) / m * m

/-- `starts_offset`. -/
def startsOffset : Nat := 32

/-- `starts_in_image_size`. -/
def startsInImageSize : Nat := 4 * (DEFAULT_SEGMENT_COUNT + 1)

/-- `segment_info_offset`. -/
def segmentInfoOffset : Nat := nextMultipleOf startsInImageSize 8

/-- `segment_info_start`. -/
def segmentInfoStart : Nat := startsOffset + segmentInfoOffset

/-- `segment_info_size`. -/
def segmentInfoSize (pageCount : Nat) : Nat :=
  nextMultipleOf (4 + 2 + 2 + 8 + 4 + 2 + 2 * pageCount) 8

/-- The fixed words at the start of the table, and the segments, none of which has chains so far. -/
def writeTableHeader (out : Bytes) (importCount : Nat) : Except Failure Bytes := do
  let out ← writeWord 4 out 0 0
  let out ← writeWord 4 out 4 startsOffset
  let out ← writeWord 4 out 16 importCount
  let out ← writeWord 4 out 20 1
  let out ← writeWord 4 out 24 0
  let out ← writeWord 4 out startsOffset DEFAULT_SEGMENT_COUNT
  (List.range DEFAULT_SEGMENT_COUNT).foldlM
    (fun out segmentIndex => writeWord 4 out (startsOffset + 4 * (segmentIndex + 1)) 0) out

/-- The loop that enters a slot into the start of its page. -/
def enterSlot (dataStart dataFileSize pageStartsOffset : Nat) (out : Bytes) (slot : Nat) :
    Except Failure Bytes := do
  ensure (dataStart ≤ slot)
    ("Mach-O chained fixup slot " ++ ChainedRebases.hex slot ++ " precedes __DATA")
  let offsetInSegment := slot - dataStart
  ensure (offsetInSegment + 8 ≤ dataFileSize) ("Mach-O chained fixup slot "
    ++ ChainedRebases.hex slot ++ " is not fully within file-backed __DATA")
  let pageIndex := offsetInSegment / MACHO_PAGE_SIZE
  let offsetInPage := offsetInSegment % MACHO_PAGE_SIZE
  let pageStartLocation := pageStartsOffset + pageIndex * 2
  let current ← readWord out pageStartLocation
  if current = DYLD_CHAINED_PTR_START_NONE ∨ offsetInPage < current then
    writeWord 2 out pageStartLocation offsetInPage
  else
    .ok out

/-- The part of the table for `__DATA`. -/
def writeSegmentInfo (data : OutputRecordLayout) (slots : List Nat) (lastSlot : Nat) (out : Bytes) :
    Except Failure Bytes := do
  let dataStart := data.memOffset
  ensure (dataStart ≤ lastSlot)
    ("Mach-O chained fixup slot " ++ ChainedRebases.hex lastSlot ++ " precedes __DATA")
  let pageCount := chainedFixupPageCount dataStart lastSlot
  ensure (pageCount ≤ 0xffff)
    ("Mach-O chained fixup page count " ++ toString pageCount ++ " exceeds u16::MAX")
  let importsOffset := segmentInfoStart + segmentInfoSize pageCount
  ensure (importsOffset ≤ out.length)
    ("CHAINED_FIXUP_TABLE allocation too small. Need at least " ++ toString importsOffset
      ++ " bytes, got " ++ toString out.length)
  let out ← writeWord 4 out (startsOffset + 4 * (DATA_SEGMENT_CHAIN_INDEX + 1)) segmentInfoOffset
  let out ← writeWord 4 out segmentInfoStart (segmentInfoSize pageCount)
  let out ← writeWord 2 out (segmentInfoStart + 4) MACHO_PAGE_SIZE
  let out ← writeWord 2 out (segmentInfoStart + 6) DYLD_CHAINED_PTR_64_OFFSET
  ensure (MACHO_START_MEM_ADDRESS ≤ dataStart) "Invalid Mach-O __DATA segment start"
  let out ← writeWord 8 out (segmentInfoStart + 8) (dataStart - MACHO_START_MEM_ADDRESS)
  let out ← writeWord 4 out (segmentInfoStart + 16) 0
  let out ← writeWord 2 out (segmentInfoStart + 20) pageCount
  let pageStartsOffset := segmentInfoStart + 22
  let out ← (List.range pageCount).foldlM (fun out pageIndex =>
    writeWord 2 out (pageStartsOffset + pageIndex * 2) DYLD_CHAINED_PTR_START_NONE) out
  slots.foldlM (enterSlot dataStart data.fileSize pageStartsOffset) out

/-- The part for `__DATA`, where there are slots. -/
def writeSegments (data : Option OutputRecordLayout) (slots : List Nat) (out : Bytes) :
    Except Failure Bytes :=
  match slots.getLast? with
  | none => .ok out
  | some lastSlot => do
    let data ← okOr (.error "Chained rebases require a __DATA segment") data
    writeSegmentInfo data slots lastSlot out

/-- The loop over the imports: an entry with the place of the name, and the name. -/
def writeImports (importsOffset symbolsOffset : Nat) :
    List ChainedImport → Nat → Nat → Bytes → Except Failure Bytes
  | [], _, _, out => .ok out
  | chainedImport :: rest, importIndex, stringOffset, out => do
    ensure (stringOffset < 1 <<< 23) "Mach-O chained import symbol strings exceed 23-bit offsets"
    let out ← writeWord 4 out (importsOffset + importIndex * 4)
      (chainedImport.libOrdinal.toNat ||| (stringOffset <<< 9))
    let stringStart := symbolsOffset + stringOffset
    ensure (stringStart + chainedImport.name.length + 1 ≤ out.length)
      "CHAINED_FIXUP_TABLE allocation too small for import"
    let out := splice out stringStart (chainedImport.name ++ [0])
    writeImports importsOffset symbolsOffset rest (importIndex + 1)
      (stringOffset + (chainedImport.name.length + 1)) out

/-- Where the imports start: after the part for `__DATA`, if there is one. -/
def importsOffset (data : Option OutputRecordLayout) (slots : List Nat) : Nat :=
  match data, slots.getLast? with
  | some data, some lastSlot =>
    segmentInfoStart + segmentInfoSize (chainedFixupPageCount data.memOffset lastSlot)
  | _, _ => startsOffset + startsInImageSize

/-- `write_chained_fixup_table`.  `data` is the size of the segment `__DATA`, if there is one. -/
def writeChainedFixupTable (data : Option OutputRecordLayout) (chained : ChainedRebases)
    (out : Bytes) : Except Failure Bytes := do
  let out := List.replicate out.length 0
  let out ← writeTableHeader out chained.imports.length
  let out ← writeSegments data chained.slots out
  let importsOffset := importsOffset data chained.slots
  let symbolsOffset := importsOffset + chained.imports.length * 4
  ensure (symbolsOffset ≤ out.length)
    ("CHAINED_FIXUP_TABLE allocation too small. Need at least " ++ toString symbolsOffset
      ++ " bytes, got " ++ toString out.length)
  let out ← writeWord 4 out 8 importsOffset
  let out ← writeWord 4 out 12 symbolsOffset
  ensure (symbolsOffset + 1 ≤ out.length)
    "CHAINED_FIXUP_TABLE allocation too small for symbol strings"
  writeImports importsOffset symbolsOffset chained.imports 0 1 out

/-! ## 4. How dyld reads it -/

/-- What a slot says of its pointer. -/
inductive ChainedPointer
  /-- A target in the image, from its start on, and the high byte of the pointer. -/
  | rebase (runtimeOffset high8 : Nat)
  | bind (ordinal addend : Nat)
  deriving DecidableEq

/-- The `next` field. -/
def decodeNext (word : Nat) : Nat := (word >>> 51) &&& 0xfff

def decodePointer (word : Nat) : ChainedPointer :=
  if word >>> 63 = 1 then .bind (word &&& 0xffffff) ((word >>> 24) &&& 0xff)
  else .rebase (word &&& 0xfffffffff) ((word >>> 36) &&& 0xff)

theorem le_of_readLe {n : Nat} {buffer : Bytes} {offset word : Nat}
    (h : readLe n buffer offset = some word) : offset + n ≤ buffer.length := by
  obtain ⟨piece, hpiece, -⟩ := Option.map_eq_some_iff.mp h
  exact (slice_eq_some.mp hpiece).2.1

/-- The slots of the chain from `offset` on. -/
def walkChain (segment : Bytes) (offset : Nat) : Option (List (Nat × ChainedPointer)) :=
  match hword : readLe 8 segment offset with
  | none => none
  | some word =>
    if hnext : decodeNext word = 0 then some [(offset, decodePointer word)]
    else (walkChain segment (offset + 4 * decodeNext word)).map ((offset, decodePointer word) :: ·)
termination_by segment.length - offset
decreasing_by
  have := le_of_readLe hword
  omega

/-- The chain of a page: none, or from its start on. -/
def walkPage (table segment : Bytes) (info pageSize page : Nat) :
    Option (List (Nat × ChainedPointer)) := do
  let start ← readLe 2 table (info + 22 + 2 * page)
  if start = DYLD_CHAINED_PTR_START_NONE then some []
  else walkChain segment (page * pageSize + start)

/-- All slots of `__DATA`, page by page. -/
def walkFixups (table segment : Bytes) : Option (List (Nat × ChainedPointer)) := do
  let starts ← readLe 4 table 4
  let infoOffset ← readLe 4 table (starts + 4 * (DATA_SEGMENT_CHAIN_INDEX + 1))
  if infoOffset = 0 then some []
  else
    let info := starts + infoOffset
    let pageSize ← readLe 2 table (info + 4)
    let pageCount ← readLe 2 table (info + 20)
    let pages ← (List.range pageCount).mapM (walkPage table segment info pageSize)
    some pages.flatten

/-- The bytes up to the first zero. -/
def cString (bytes : Bytes) : Bytes := bytes.takeWhile (· ≠ 0)

/-- The library and the name of an import. -/
def readImport (table : Bytes) (index : Nat) : Option (Nat × Bytes) := do
  let imports ← readLe 4 table 8
  let symbols ← readLe 4 table 12
  let entry ← readLe 4 table (imports + index * 4)
  some (entry &&& 0xff, cString (table.drop (symbols + (entry >>> 9))))

end Srs.MachO
