/-
# The unwind metadata of symbols

With dead stripping, the entries of `__compact_unwind` and the FDEs of `__eh_frame` are kept one by
one.  Two tables say which of them belong to a symbol (`ensure_compact_unwind_lookup`,
`ensure_eh_frame_lookup`), and when the traversal of `DeadStrip` first gets to a symbol of
executable code, what belongs to it comes alive and its relocations are processed.  At the end
`compact_macho_eh_frame` deletes what is not alive from `__eh_frame`.

The tables are made once an object; here they are functions of it.  Offsets into the data of a
section do not overflow.  The order of the relocations at one address is not specified in the source
and is that of the section here.
-/
import Srs.Lib.LeBuffers
import Srs.MachO.DeadStrip
import Srs.MachO.Failures

namespace Srs.MachO.UnwindMetadata

open Buffers Cuts DeadStrip

/-- `{:#x}` -/
def hex (n : Nat) : String := "0x" ++ String.ofList (Nat.toDigits 16 n)

/-- `macho_read_u32` -/
def machoReadU32 (data : Bytes) (offset : Nat) : Except Failure Nat :=
  okOr (.error s!"Mach-O 32-bit read at offset {hex offset} is out of bounds") (readLe 4 data offset)

/-- `macho_read_u64` -/
def machoReadU64 (data : Bytes) (offset : Nat) : Except Failure Nat :=
  okOr (.error s!"Mach-O 64-bit read at offset {hex offset} is out of bounds") (readLe 8 data offset)

/-- `section_by_name` -/
def sectionByName (object : Object) (name : Text) : Option (Nat × SectionHeader) :=
  (object.sections.zipIdx.find? fun (header, _) => header.name = name).map
    fun (header, index) => (index, header)

/-! ## 1. Entries of `__compact_unwind` -/

def MACHO_COMPACT_UNWIND_ENTRY_SIZE : Nat := 32

structure CompactUnwindEntryLookup where
  entryStart : Nat
  relocations : List Relocation

structure CompactUnwindLookup where
  sectionIndex : Nat
  entriesBySymbol : List (Nat × CompactUnwindEntryLookup)

/-- `symbols_by_section`: the symbols of a section with their offsets. -/
def symbolsOfSection (object : Object) (sectionIndex : Nat) (header : SectionHeader) :
    List (Nat × Nat × Bool) :=
  object.symbols.zipIdx.filterMap fun (symbol, index) =>
    if symbol.sectionIndex = some sectionIndex then
      (Object.symbolOffsetInSection symbol header).map fun offset =>
        (offset, index, symbol.altEntry)
    else none

/-- `subsection_boundaries_by_section` -/
def subsectionBoundaries (header : SectionHeader) (symbols : List (Nat × Nat × Bool)) : List Nat :=
  sortDedup (0 :: symbols.filterMap fun (offset, _, isAlt) =>
    if isAlt = false ∧ offset < header.size then some offset else none)

/-- `symbols_by_subsection`: the symbols of the subsection that starts at an offset. -/
def symbolsOfSubsection (boundaries : List Nat) (symbols : List (Nat × Nat × Bool)) (start : Nat) :
    List Nat :=
  (symbols.filter fun (offset, _, _) =>
    match cutsUpTo boundaries offset with
    | 0 => false
    | index + 1 => boundaries[index]? = some start).map fun (_, index, _) => index

/-- The symbols of the subsection in which an offset lies, as far as the section has symbols. -/
def symbolsAt (object : Object) (sectionIndex symbolOffset : Nat) : List Nat :=
  match object.sections[sectionIndex]? with
  | none => []
  | some header =>
    let symbols := symbolsOfSection object sectionIndex header
    if symbols.isEmpty then []
    else
      let boundaries := subsectionBoundaries header symbols
      match cutsUpTo boundaries symbolOffset with
      | 0 => []
      | index + 1 =>
        match boundaries[index]? with
        | none => []
        | some start => symbolsOfSubsection boundaries symbols start

/-- One turn of the loop over the relocations: the symbols that get an entry by a relocation. -/
def entryStartsBySymbol (object : Object) (data : Bytes) (rel : Relocation) :
    Except Failure (List (Nat × Nat)) := do
  let offset := rel.rAddress
  ensure (offset < data.length)
    s!"Mach-O __compact_unwind relocation at invalid offset {hex offset}"
  let fieldOffset := offset % MACHO_COMPACT_UNWIND_ENTRY_SIZE
  ensure (fieldOffset = 0 ∨ fieldOffset = 16 ∨ fieldOffset = 24)
    s!"Unsupported Mach-O __compact_unwind relocation field offset {hex fieldOffset}"
  let entryStart := offset - fieldOffset
  if fieldOffset = 0 ∧ rel.rExtern = true then .ok [(rel.rSymbolnum, entryStart)]
  else if fieldOffset = 0 ∧ 0 < rel.rSymbolnum then do
    let sectionIndex := rel.rSymbolnum - 1
    ensure (sectionIndex < object.sections.length)
      s!"Mach-O __compact_unwind relocation references invalid section ordinal {rel.rSymbolnum}"
    let symbolOffset ← machoReadU64 data offset
    .ok ((symbolsAt object sectionIndex symbolOffset).map fun symbol => (symbol, entryStart))
  else .ok []

/-- `relocation_indices_by_entry`, with the relocations themselves. -/
def relocationsOfEntry (relocations : List Relocation) (entryStart : Nat) : List Relocation :=
  relocations.filter fun rel =>
    rel.rAddress - rel.rAddress % MACHO_COMPACT_UNWIND_ENTRY_SIZE = entryStart

/-- `ensure_compact_unwind_lookup` -/
def ensureCompactUnwindLookup (object : Object) (rawSectionData : Nat → Option Bytes) :
    Except Failure (Option CompactUnwindLookup) :=
  match sectionByName object "__compact_unwind".toList with
  | none => .ok none
  | some (sectionIndex, header) => do
    let data ← okOr (.error "cannot get section data") (rawSectionData sectionIndex)
    ensure (data.length % MACHO_COMPACT_UNWIND_ENTRY_SIZE = 0)
      "__compact_unwind size must be a multiple of 32"
    let relocations := header.relocations.filter (·.rType ≠ .addend)
    let starts ← relocations.mapM (entryStartsBySymbol object data)
    .ok (some {
      sectionIndex := sectionIndex
      entriesBySymbol := starts.flatten.map fun (symbol, entryStart) =>
        (symbol, ⟨entryStart, relocationsOfEntry relocations entryStart⟩) })

/-! ## 2. Entries of `__eh_frame` -/

structure EhFrameEntryBounds where
  start : Nat
  stop : Nat
  ciePointer : Nat
  deriving DecidableEq

structure EhFrameEntryLookup where
  fdeStart : Nat
  fdeEnd : Nat
  cieStart : Nat
  cieEnd : Nat
  fdeRelocations : List Relocation
  cieRelocations : List Relocation

structure EhFrameLookup where
  sectionIndex : Nat
  entriesBySymbol : List (Nat × EhFrameEntryLookup)

/-- `entry_bounds`: the loop over the entries from an offset on, up to a terminator. -/
def entryBounds (data : Bytes) (offset : Nat) : Except Failure (List EhFrameEntryBounds) :=
  if offset + 4 ≤ data.length then do
    let length ← machoReadU32 data offset
    if length = 0 then .ok []
    else do
      ensure (length ≠ 0xffff_ffff) "Mach-O 64-bit __eh_frame lengths are not supported"
      if _h : offset + 4 + length ≤ data.length then do
        let ciePointer ← machoReadU32 data (offset + 4)
        let rest ← entryBounds data (offset + 4 + length)
        .ok (⟨offset, offset + 4 + length, ciePointer⟩ :: rest)
      else .error (.error
        s!"Mach-O __eh_frame entry at offset {hex offset} extends past the section")
  else .ok []
termination_by data.length - offset

/-- The CIE of an FDE, which its pointer must designate. -/
def cieOf (entries : List EhFrameEntryBounds) (bounds : EhFrameEntryBounds) :
    Except Failure EhFrameEntryBounds := do
  let fde := s!"Mach-O __eh_frame FDE at offset {hex bounds.start} references"
  let cieStart ← okOr (.error s!"{fde} invalid CIE pointer {hex bounds.ciePointer}")
    (if bounds.ciePointer ≤ bounds.start + 4 then some (bounds.start + 4 - bounds.ciePointer)
      else none)
  let cie ← okOr (.error s!"{fde} missing CIE at offset {hex cieStart}")
    (entries.find? (·.start = cieStart))
  ensure (cie.ciePointer = 0) s!"{fde} non-CIE entry {hex cieStart}"
  .ok cie

/-- The loop that gives every entry its relocations, which are sorted; what was passed is dropped. -/
def relocationsByEntry : List EhFrameEntryBounds → List Relocation → List (Nat × List Relocation)
  | [], _ => []
  | bounds :: rest, order =>
    let order := order.dropWhile (·.rAddress < bounds.start)
    (bounds.start, order.takeWhile (·.rAddress < bounds.stop))
      :: relocationsByEntry rest (order.dropWhile (·.rAddress < bounds.stop))

/-- `relocation_indices_by_entry.get` -/
def relocationsAt (byEntry : List (Nat × List Relocation)) (start : Nat) : List Relocation :=
  ((byEntry.find? (·.1 = start)).map (·.2)).getD []

/-- One turn of the loop over the FDEs. -/
def fdeLookups (entries : List EhFrameEntryBounds) (byEntry : List (Nat × List Relocation))
    (bounds : EhFrameEntryBounds) : Except Failure (List (Nat × EhFrameEntryLookup)) := do
  let fdeRelocations := relocationsAt byEntry bounds.start
  let symbols := fdeRelocations.filterMap fun rel =>
    if rel.rAddress = bounds.start + 8 ∧ rel.rExtern = true then some rel.rSymbolnum else none
  let cie ← cieOf entries bounds
  .ok (symbols.map fun symbol => (symbol, {
    fdeStart := bounds.start
    fdeEnd := bounds.stop
    cieStart := cie.start
    cieEnd := cie.stop
    fdeRelocations := fdeRelocations
    cieRelocations := relocationsAt byEntry cie.start }))

/-- `ensure_eh_frame_lookup` -/
def ensureEhFrameLookup (object : Object) (rawSectionData : Nat → Option Bytes) :
    Except Failure (Option EhFrameLookup) :=
  match sectionByName object "__eh_frame".toList with
  | none => .ok none
  | some (sectionIndex, header) => do
    let data ← okOr (.error "cannot get section data") (rawSectionData sectionIndex)
    let entries ← entryBounds data 0
    let order := sortedByKey (·.rAddress) (header.relocations.filter (·.rType ≠ .addend))
    let byEntry := relocationsByEntry entries order
    let lookups ← (entries.filter (·.ciePointer ≠ 0)).mapM (fdeLookups entries byEntry)
    .ok (some ⟨sectionIndex, lookups.flatten⟩)

/-! ## 3. What comes alive -/

/-- The live sets, by file, section and start of the entry, beside the state of the traversal. -/
structure UnwindState where
  base : State
  liveCompactUnwindEntries : Nat → Nat → Nat → Bool
  liveEhFrameFdes : Nat → Nat → Nat → Bool
  liveEhFrameCies : Nat → Nat → Nat → Bool

def initial : UnwindState where
  base := DeadStrip.initial
  liveCompactUnwindEntries _ _ _ := false
  liveEhFrameFdes _ _ _ := false
  liveEhFrameCies _ _ _ := false

/-- `BTreeSet::insert` -/
def insert (live : Nat → Nat → Nat → Bool) (file sectionIndex start : Nat) : Nat → Nat → Nat → Bool :=
  fun f i e => if f = file ∧ i = sectionIndex ∧ e = start then true else live f i e

/-- The loop over the entries of a symbol.  An entry that is alive already is left. -/
def loadCompactUnwindEntries (file sectionIndex : Nat) : UnwindState →
    List CompactUnwindEntryLookup → UnwindState × List Work
  | u, [] => (u, [])
  | u, entry :: rest =>
    if u.liveCompactUnwindEntries file sectionIndex entry.entryStart then
      loadCompactUnwindEntries file sectionIndex u rest
    else
      let (u, work) := loadCompactUnwindEntries file sectionIndex
        { u with liveCompactUnwindEntries :=
            insert u.liveCompactUnwindEntries file sectionIndex entry.entryStart } rest
      (u, entry.relocations.map (.processRelocation file sectionIndex) ++ work)

/-- The loop over the FDEs of a symbol, each with its CIE. -/
def loadEhFrameEntries (file sectionIndex : Nat) : UnwindState →
    List EhFrameEntryLookup → UnwindState × List Work
  | u, [] => (u, [])
  | u, entry :: rest =>
    let ofFde := if u.liveEhFrameFdes file sectionIndex entry.fdeStart then []
      else entry.fdeRelocations.map (Work.processRelocation file sectionIndex)
    let ofCie := if u.liveEhFrameCies file sectionIndex entry.cieStart then []
      else entry.cieRelocations.map (Work.processRelocation file sectionIndex)
    let (u, work) := loadEhFrameEntries file sectionIndex
      { u with
        liveEhFrameFdes := insert u.liveEhFrameFdes file sectionIndex entry.fdeStart
        liveEhFrameCies := insert u.liveEhFrameCies file sectionIndex entry.cieStart } rest
    (u, ofFde ++ ofCie ++ work)

section

variable (link : Link) (rawSectionData : Nat → Nat → Option Bytes)

/-- The entries under a symbol. -/
def entriesOf {α : Type} (entriesBySymbol : List (Nat × α)) (symbol : Nat) : List α :=
  (entriesBySymbol.filter (·.1 = symbol)).map (·.2)

/-- `load_macho_compact_unwind_for_symbol` -/
def loadMachoCompactUnwindForSymbol (u : UnwindState) (object : Object) (symbolId : SymbolId) :
    Except Failure (UnwindState × List Work) := do
  match ← ensureCompactUnwindLookup object (rawSectionData symbolId.file) with
  | none => .ok (u, [])
  | some lookup => .ok (loadCompactUnwindEntries symbolId.file lookup.sectionIndex u
      (entriesOf lookup.entriesBySymbol symbolId.index))

/-- `load_macho_eh_frame_for_symbol` -/
def loadMachoEhFrameForSymbol (u : UnwindState) (object : Object) (symbolId : SymbolId) :
    Except Failure (UnwindState × List Work) := do
  match ← ensureEhFrameLookup object (rawSectionData symbolId.file) with
  | none => .ok (u, [])
  | some lookup => .ok (loadEhFrameEntries symbolId.file lookup.sectionIndex u
      (entriesOf lookup.entriesBySymbol symbolId.index))

/-- `load_macho_unwind_metadata_for_symbol`, with the relocations that it processes. -/
def loadMachoUnwindMetadataForSymbol (u : UnwindState) (object : Object) (symbolId : SymbolId) :
    Except Failure (UnwindState × List Work) :=
  if link.stripsAtoms object then do
    let (u, compact) ← loadMachoCompactUnwindForSymbol rawSectionData u object symbolId
    let (u, frames) ← loadMachoEhFrameForSymbol rawSectionData u object symbolId
    .ok (u, compact ++ frames)
  else .ok (u, [])

/-! ## 4. The traversal -/

/-- Whether `load_macho_subsection_symbol` gets to the unwind metadata of its symbol. -/
def reachesUnwind (s : State) (symbolId : SymbolId) (sectionIndex : Nat) : Bool :=
  !s.visited symbolId && (do
    let object ← link.objects[symbolId.file]?
    let symbol ← object.symbols[symbolId.index]?
    let header ← object.sections[sectionIndex]?
    let offset ← Object.symbolOffsetInSection symbol header
    let _ ← markedIndex object header sectionIndex offset
    some header.isExecutable).getD false

/-- The symbol whose unwind metadata some work loads. -/
def unwindSymbol? (s : State) : Work → Option SymbolId
  | .loadSymbol symbolId => do
    let object ← link.objects[symbolId.file]?
    let symbol ← object.symbols[symbolId.index]?
    let sectionIndex ← symbol.sectionIndex
    let header ← object.sections[sectionIndex]?
    if link.subsectionGcEnabled object header = true ∧ reachesUnwind link s symbolId sectionIndex
    then some symbolId
    else none
  | .loadSubsectionSymbol symbolId sectionIndex =>
    if reachesUnwind link s symbolId sectionIndex then some symbolId else none
  | _ => none

/-- The unwind metadata that some work loads. -/
def loadUnwind (u : UnwindState) (work : Work) : Option (UnwindState × List Work) :=
  match unwindSymbol? link u.base work with
  | none => some (u, [])
  | some symbolId => do
    let object ← link.objects[symbolId.file]?
    (loadMachoUnwindMetadataForSymbol link rawSectionData u object symbolId).toOption

/-- What a piece of work does, with the live sets. -/
def exec (u : UnwindState) (work : Work) : Option UnwindState := do
  let (loaded, unwind) ← loadUnwind link rawSectionData u work
  let base ← DeadStrip.exec link u.base unwind work
  some { loaded with base := base }

/-- Some work is taken from what is pending. -/
def UnwindState.take (u : UnwindState) (front back : List Work) (work : Work) : UnwindState :=
  { u with base := { u.base with pending := front ++ back, done := work :: u.base.done } }

inductive Step : UnwindState → UnwindState → Prop
  | work {u u' : UnwindState} {front back : List Work} {work : Work}
      (hpending : u.base.pending = front ++ work :: back)
      (hexec : exec link rawSectionData (u.take front back work) work = some u') : Step u u'
  | requestSymbol {u : UnwindState} (symbolId : SymbolId) :
      Step u { u with base := (u.base.push [.loadSymbol symbolId]).resolve symbolId true }
  | requestSection {u : UnwindState} (file sectionIndex : Nat) :
      Step u { u with base := u.base.push [.loadSection file sectionIndex] }

inductive Reachable : UnwindState → Prop
  | initial : Reachable initial
  | step {u u' : UnwindState} : Reachable u → Step link rawSectionData u u' → Reachable u'

/-! ## 5. Compaction -/

/-- `macho_live_eh_frame_cies` -/
def machoLiveEhFrameCies (data : Bytes) (liveFdes : Nat → Bool) : Except Failure (List Nat) := do
  let entries ← entryBounds data 0
  let cies ← (entries.filter fun bounds =>
    bounds.ciePointer ≠ 0 ∧ liveFdes bounds.start = true).mapM (cieOf entries)
  .ok (cies.map (·.start))

/-- The loop of `compact_macho_eh_frame` from an offset on.  `none` where it clears the deltas. -/
def frameDeltas (data : Bytes) (keep : Nat → Nat → Bool) (offset : Nat) :
    Option (List (Nat × Nat)) :=
  if offset + 4 ≤ data.length then do
    let length ← readLe 4 data offset
    if length = 0 then
      -- the terminator goes with all that is behind it
      if data.length - offset < 2 ^ 32 then some [(offset, data.length - offset)] else none
    else if length = 0xffff_ffff then none
    else if _h : offset + 4 + length ≤ data.length then do
      let ciePointer ← readLe 4 data (offset + 4)
      if keep offset ciePointer then frameDeltas data keep (offset + 4 + length)
      else if 4 + length < 2 ^ 32 then
        let rest ← frameDeltas data keep (offset + 4 + length)
        some ((offset, 4 + length) :: rest)
      else none
    else none
  else some []
termination_by data.length - offset

/-- `compact_macho_eh_frame`: what is deleted of the section. -/
def compactMachoEhFrame (u : UnwindState) (object : Object) (file : Nat) : List (Nat × Nat) :=
  match sectionByName object "__eh_frame".toList with
  | none => []
  | some (sectionIndex, _) =>
    if u.base.loaded file sectionIndex = false then []
    else match rawSectionData file sectionIndex with
      | none => []
      | some data =>
        let liveFdes := u.liveEhFrameFdes file sectionIndex
        if link.stripsAtoms object then
          match machoLiveEhFrameCies data liveFdes with
          | .error _ => []
          | .ok liveCies => (frameDeltas data (fun offset ciePointer =>
              if ciePointer = 0 then liveCies.contains offset else liveFdes offset) 0).getD []
        else (frameDeltas data (fun _ _ => true) 0).getD []

end

end Srs.MachO.UnwindMetadata
