/-
# Dead stripping of Mach-O subsections

With `-dead_strip` and `MH_SUBSECTIONS_VIA_SYMBOLS` the symbols of a section cut it into
subsections, and `macho.rs` keeps those that are reached.  A request for a symbol marks the
subsection that it lies in, and the relocations there are processed; each may reach further
symbols.  When no work is left, `compact_dead_macho_subsections` deletes what was not marked.  It
goes by the symbols again, and not by the subsections that were marked.

The calls that follow from one call are work to be done, like the requests that are sent.  So the
order of work is any order.  Other parts of the link may request anything at any time.  A call that
fails ends the link.  What the unwind metadata of a symbol adds are any relocations.
-/
import Srs.Lib.Cuts
import Srs.Lib.SortDedup
import Srs.Lib.Text

namespace Srs.MachO.DeadStrip

open Cuts

/-! ## 1. Objects -/

structure Symbol where
  /-- `symbol_section`. -/
  sectionIndex : Option Nat
  nValue : Nat
  altEntry : Bool
  noDeadStrip : Bool
  isLocal : Bool
  isHidden : Bool
  deriving DecidableEq

inductive RelocationType
  | addend | subtractor | other
  deriving DecidableEq

/-- A relocation.  `designated` is the offset in its section that a relocation without a symbol
means by the value it stores; nothing here reads it. -/
structure Relocation where
  rAddress : Nat
  rSymbolnum : Nat
  rExtern : Bool
  rType : RelocationType
  designated : Nat
  deriving DecidableEq

/-- What a section is before it is loaded: a request loads it, fails, or does nothing. -/
inductive SectionSlot
  | unloaded | discard | other
  deriving DecidableEq

structure SectionHeader where
  name : Text
  addr : Nat
  size : Nat
  shouldRetain : Bool
  isExecutable : Bool
  slot : SectionSlot
  relocations : List Relocation

structure Object where
  subsectionsViaSymbols : Bool
  sections : List SectionHeader
  symbols : List Symbol

/-- A symbol of a file. -/
structure SymbolId where
  file : Nat
  index : Nat
  deriving DecidableEq

/-- The files of a link.  `definition` is `symbol_db.definition`, and `resolves` says whether a
relocation has flags that give its symbol a resolution. -/
structure Link where
  deadStrip : Bool
  objects : List Object
  definition : SymbolId → SymbolId
  resolves : Relocation → Bool

namespace Object

variable (object : Object)

/-- `symbol_offset_in_section`. -/
def symbolOffsetInSection (symbol : Symbol) (header : SectionHeader) : Option Nat :=
  if header.addr ≤ symbol.nValue then some (symbol.nValue - header.addr) else none

/-- The offsets of the symbols of a section that start a subsection. -/
def ordinaryOffsets (sectionIndex : Nat) (header : SectionHeader) : List Nat :=
  object.symbols.filterMap fun symbol =>
    if symbol.altEntry = false ∧ symbol.sectionIndex = some sectionIndex then
      symbolOffsetInSection symbol header
    else none

/-- `subsection_boundaries`. -/
def boundaries (sectionIndex : Nat) (header : SectionHeader) : List Nat :=
  sortDedup (0 :: (object.ordinaryOffsets sectionIndex header).filter (· < header.size))

/-- The relocations of a subsection. -/
def subsectionRelocations (sectionIndex : Nat) (header : SectionHeader) (index : Nat) :
    List Relocation :=
  let boundaries := object.boundaries sectionIndex header
  (header.relocations.filter fun rel => cutsUpTo boundaries rel.rAddress = index + 1).filter
    fun rel => rel.rAddress < pieceStop boundaries header.size index

end Object

/-- The sections whose subsections are stripped. -/
def SectionHeader.isStripped (header : SectionHeader) : Bool :=
  !header.shouldRetain && (header.isExecutable || header.name = "__gcc_except_tab".toList
    || header.name = "__const".toList)

/-- Whether subsections of the object are stripped at all. -/
def Link.stripsAtoms (link : Link) (object : Object) : Bool :=
  link.deadStrip && object.subsectionsViaSymbols

/-- `macho_subsection_gc_enabled`. -/
def Link.subsectionGcEnabled (link : Link) (object : Object) (header : SectionHeader) : Bool :=
  link.stripsAtoms object && header.isStripped

/-! ## 2. The state -/

inductive Work
  /-- A request for a symbol. -/
  | loadSymbol (symbolId : SymbolId)
  /-- A request for a section. -/
  | loadSection (file sectionIndex : Nat)
  /-- A call of `load_macho_subsection_symbol`. -/
  | loadSubsectionSymbol (symbolId : SymbolId) (sectionIndex : Nat)
  /-- A call of `process_relocation`, for a relocation of a section. -/
  | processRelocation (file sectionIndex : Nat) (rel : Relocation)
  /-- The second half of that call. -/
  | resolveRelocation (file : Nat) (rel : Relocation)
  deriving DecidableEq

/-- `live` is by file, section and index of the subsection, and `resolved` says which symbols have
flags for a resolution.  `done` is the work that was done. -/
structure State where
  live : Nat → Nat → Nat → Bool
  visited : SymbolId → Bool
  loaded : Nat → Nat → Bool
  resolved : SymbolId → Bool
  pending : List Work
  done : List Work

def initial : State where
  live _ _ _ := false
  visited _ := false
  loaded _ _ := false
  resolved _ := false
  pending := []
  done := []

namespace State

def push (s : State) (work : List Work) : State := { s with pending := s.pending ++ work }

def setLive (s : State) (file sectionIndex index : Nat) : State :=
  { s with live := fun f i b =>
      if f = file ∧ i = sectionIndex ∧ b = index then true else s.live f i b }

def setVisited (s : State) (symbolId : SymbolId) : State :=
  { s with visited := fun id => if id = symbolId then true else s.visited id }

def setLoaded (s : State) (file sectionIndex : Nat) : State :=
  { s with loaded := fun f i => if f = file ∧ i = sectionIndex then true else s.loaded f i }

/-- `fetch_or` of the flags that a relocation adds. -/
def resolve (s : State) (symbolId : SymbolId) (adds : Bool) : State :=
  { s with resolved := fun id => if id = symbolId then s.resolved id || adds else s.resolved id }

end State

/-! ## 3. Marking -/

section

variable (link : Link)

/-- The index of the subsection of a symbol, if it is not empty. -/
def markedIndex (object : Object) (header : SectionHeader) (sectionIndex offset : Nat) :
    Option Nat :=
  let boundaries := object.boundaries sectionIndex header
  match cutsUpTo boundaries offset with
  | 0 => none
  | index + 1 =>
    match boundaries[index]? with
    | none => none
    | some start => if pieceStop boundaries header.size index ≤ start then none else some index

/-- `load_macho_subsection_symbol`, with what it calls and sends and whether it handled the symbol.
`unwind` are the relocations of the symbol's unwind metadata. -/
def loadMachoSubsectionSymbol (s : State) (symbolId : SymbolId) (sectionIndex : Nat)
    (unwind : List Work) : Option (State × Bool) := do
  let object ← link.objects[symbolId.file]?
  if s.visited symbolId then some (s, true)
  else
    let symbol ← object.symbols[symbolId.index]?
    let header ← object.sections[sectionIndex]?
    let offset ← Object.symbolOffsetInSection symbol header
    match markedIndex object header sectionIndex offset with
    | none => some (s, false)
    | some index =>
      let newlyLive := !s.live symbolId.file sectionIndex index
      let relocations := if newlyLive then
        (object.subsectionRelocations sectionIndex header index).map
          (.processRelocation symbolId.file sectionIndex)
        else []
      some ((((s.setLive symbolId.file sectionIndex index).setVisited symbolId).push
        (.loadSection symbolId.file sectionIndex :: relocations
          ++ if header.isExecutable then unwind else [])), true)

/-- A request for a symbol: `load_symbol`, with `load_object_symbol`.  Other files have nothing to
load here. -/
def loadSymbol (s : State) (symbolId : SymbolId) (unwind : List Work) : Option State :=
  match link.objects[symbolId.file]? with
  | none => some s
  | some object => do
    let symbol ← object.symbols[symbolId.index]?
    match symbol.sectionIndex with
    | none => some s
    | some sectionIndex =>
      let header ← object.sections[sectionIndex]?
      if link.subsectionGcEnabled object header then
        let (s, handled) ← loadMachoSubsectionSymbol link s symbolId sectionIndex unwind
        some (if handled then s else s.push [.loadSection symbolId.file sectionIndex])
      else some (s.push [.loadSection symbolId.file sectionIndex])

/-- The work of `load_object_section_relocations`: the symbols that are never stripped, or all
relocations.  Those of `__eh_frame` wait for their symbols. -/
def sectionWork (object : Object) (header : SectionHeader) (file sectionIndex : Nat) : List Work :=
  if link.subsectionGcEnabled object header then
    (object.symbols.zipIdx.filter fun (symbol, _) =>
      symbol.altEntry = false ∧ symbol.noDeadStrip = true
        ∧ symbol.sectionIndex = some sectionIndex).map
      fun (_, index) => .loadSubsectionSymbol ⟨file, index⟩ sectionIndex
  else if header.name = "__eh_frame".toList ∧ link.stripsAtoms object = true then []
  else header.relocations.map (.processRelocation file sectionIndex)

/-- `handle_section_load_request`. -/
def loadSection (s : State) (file sectionIndex : Nat) : Option State := do
  let object ← link.objects[file]?
  let header ← object.sections[sectionIndex]?
  match header.slot with
  | .discard => none
  | .other => some s
  | .unloaded =>
    if s.loaded file sectionIndex then some s
    else some ((s.setLoaded file sectionIndex).push (sectionWork link object header file
      sectionIndex))

/-- The section of a relocation without a symbol. -/
def sectionOfOrdinal (object : Object) (rel : Relocation) : Option Nat :=
  if rel.rSymbolnum - 1 < object.sections.length then some (rel.rSymbolnum - 1) else none

/-- The first half of `process_relocation`, up to the flags of the symbol. -/
def processRelocation (s : State) (file : Nat) (rel : Relocation) : Option State := do
  let object ← link.objects[file]?
  match rel.rType, rel.rExtern with
  | .addend, _ => some s
  | .subtractor, true =>
    let symbol ← object.symbols[rel.rSymbolnum]?
    some (s.push (symbol.sectionIndex.toList.map (.loadSection file)))
  | .other, true =>
    let symbol ← object.symbols[rel.rSymbolnum]?
    let localId : SymbolId := ⟨file, rel.rSymbolnum⟩
    let continued := s.push [.resolveRelocation file rel]
    match symbol.sectionIndex with
    | none => some continued
    | some sectionIndex =>
      let keepsSameObjectSubsection :=
        symbol.isLocal || symbol.isHidden || link.definition localId = localId
      if keepsSameObjectSubsection && s.visited localId then some continued
      else
        let header ← object.sections[sectionIndex]?
        if keepsSameObjectSubsection && link.subsectionGcEnabled object header then
          some (continued.push [.loadSubsectionSymbol localId sectionIndex])
        else if symbol.isLocal || symbol.isHidden then
          some (continued.push [.loadSection file sectionIndex])
        else some continued
  | _, false =>
    if rel.rSymbolnum = 0 then some s
    else (sectionOfOrdinal object rel).map fun sectionIndex =>
      s.push [.loadSection file sectionIndex]

/-- The second half: the flags of the symbol's definition, which is requested with the first. -/
def resolveRelocation (s : State) (file : Nat) (rel : Relocation) : State :=
  let symbolId := link.definition ⟨file, rel.rSymbolnum⟩
  let requested := if s.resolved symbolId then s else s.push [.loadSymbol symbolId]
  requested.resolve symbolId (link.resolves rel)

/-- What one piece of work does. -/
def exec (s : State) (unwind : List Work) : Work → Option State
  | .loadSymbol symbolId => loadSymbol link s symbolId unwind
  | .loadSection file sectionIndex => loadSection link s file sectionIndex
  | .loadSubsectionSymbol symbolId sectionIndex =>
    (loadMachoSubsectionSymbol link s symbolId sectionIndex unwind).map (·.1)
  | .processRelocation file _ rel => processRelocation link s file rel
  | .resolveRelocation file rel => some (resolveRelocation link s file rel)

/-- The unwind metadata of a symbol gives relocations only. -/
def IsRelocation : Work → Prop
  | .processRelocation .. => True
  | _ => False

/-- A step: some pending work is done, or a request comes from elsewhere. -/
inductive Step : State → State → Prop
  | work {s s' : State} {front back unwind : List Work} {work : Work}
      (hpending : s.pending = front ++ work :: back) (hunwind : ∀ w ∈ unwind, IsRelocation w)
      (hexec : exec link { s with pending := front ++ back, done := work :: s.done } unwind work
        = some s') : Step s s'
  | requestSymbol {s : State} (symbolId : SymbolId) :
      Step s ((s.push [.loadSymbol symbolId]).resolve symbolId true)
  | requestSection {s : State} (file sectionIndex : Nat) :
      Step s (s.push [.loadSection file sectionIndex])

inductive Reachable : State → Prop
  | initial : Reachable initial
  | step {s s' : State} : Reachable s → Step link s s' → Reachable s'

/-! ## 4. Compaction -/

/-- `subsection_is_live`. -/
def subsectionIsLive (s : State) (object : Object) (header : SectionHeader)
    (file sectionIndex start : Nat) : Bool :=
  let boundaries := object.boundaries sectionIndex header
  boundaries.contains start && s.live file sectionIndex (cutsUpTo boundaries start - 1)

/-- The symbols of a section with what is kept. -/
def symbolAtoms (s : State) (object : Object) (header : SectionHeader) (file sectionIndex : Nat) :
    List (Nat × Bool) :=
  object.symbols.zipIdx.filterMap fun (symbol, index) =>
    if symbol.altEntry = false ∧ symbol.sectionIndex = some sectionIndex then
      (Object.symbolOffsetInSection symbol header).map fun offset =>
        (offset, subsectionIsLive s object header file sectionIndex offset
          || s.resolved ⟨file, index⟩ || symbol.noDeadStrip)
    else none

/-- The loop behind the first atom: atoms at the offset of the last one are joined with it. -/
def mergeFrom (offset : Nat) (keep : Bool) : List (Nat × Bool) → List (Nat × Bool)
  | [] => [(offset, keep)]
  | (next, nextKeep) :: rest =>
    if next = offset then mergeFrom offset (keep || nextKeep) rest
    else (offset, keep) :: mergeFrom next nextKeep rest

/-- `merged_atoms`: sorted, with an atom at the start. -/
def mergedAtoms (atoms : List (Nat × Bool)) : List (Nat × Bool) :=
  match sortedByKey (·.1) atoms with
  | [] => []
  | (offset, keep) :: rest =>
    if 0 < offset then mergeFrom 0 false ((offset, keep) :: rest) else mergeFrom offset keep rest

/-- What is deleted of a section: the start and the number of bytes.  `none` where a number is too
large, and then nothing is deleted. -/
def plainDeltas (size : Nat) : List (Nat × Bool) → Option (List (Nat × Nat))
  | [] => some []
  | (start, keep) :: rest =>
    let stop := (rest.head?.map (·.1)).getD size
    if keep = true ∨ stop ≤ start then plainDeltas size rest
    else if stop - start < 2 ^ 32 then
      (plainDeltas size rest).map ((start, stop - start) :: ·)
    else none

/-- `1 << offset.trailing_zeros()`: the largest power of two that divides a 64-bit offset. -/
def offsetAlignment (offset : Nat) : Nat :=
  if offset = 0 then 1 else Nat.gcd offset (2 ^ 63)

/-- `suffix_live_alignments`. -/
def suffixLiveAlignment : List (Nat × Bool) → Nat
  | [] => 1
  | (offset, true) :: rest => max (suffixLiveAlignment rest) (offsetAlignment offset)
  | (_, false) :: rest => suffixLiveAlignment rest

/-- The delta of a run of dead atoms, which keeps the alignment of what follows. -/
def runDelta (start stop alignment : Nat) : Option (List (Nat × Nat)) :=
  if stop ≤ start then some []
  else
    let deleted := (stop - start) - (stop - start) % alignment
    if deleted = 0 then some []
    else if deleted < 2 ^ 32 then some [(start, deleted)]
    else none

/-- The loop over the runs of `__const`, with the start of the dead run that is open. -/
def constDeltas (size : Nat) : Option Nat → List (Nat × Bool) → Option (List (Nat × Nat))
  | none, [] => some []
  | some start, [] => runDelta start size 1
  | none, (_, true) :: rest => constDeltas size none rest
  | none, (offset, false) :: rest => constDeltas size (some offset) rest
  | some start, (_, false) :: rest => constDeltas size (some start) rest
  | some start, (offset, true) :: rest => do
    let delta ← runDelta start offset (suffixLiveAlignment ((offset, true) :: rest))
    let deltas ← constDeltas size none rest
    some (delta ++ deltas)

/-- `compact_dead_macho_subsections`: what is deleted of one section. -/
def rawDeltas (s : State) (object : Object) (header : SectionHeader) (file sectionIndex : Nat) :
    List (Nat × Nat) :=
  if link.stripsAtoms object = false ∨ s.loaded file sectionIndex = false
      ∨ header.isStripped = false then []
  else
    let atoms := mergedAtoms (symbolAtoms s object header file sectionIndex)
    if header.name = "__const".toList then (constDeltas header.size none atoms).getD []
    else (plainDeltas header.size atoms).getD []

end

end Srs.MachO.DeadStrip
