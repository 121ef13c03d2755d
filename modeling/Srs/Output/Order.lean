/-
# The order of output sections and segments

`output_section_id.rs`: `OutputOrderBuilder` is given the primary output sections one after
another and emits a stream of events: a section, the start or the end of a program segment, a jump
to a fixed location.  A segment is cut for three reasons: the next section does not belong to it,
the next section has a location of its own, or the RELRO segment ends and the writable LOAD
segment has to end with it.

The builder works for every `Platform`; `elf` is the ELF one (`elf.rs`).
-/
import Srs.Alignment
import Srs.Dynamic.Flags

namespace Srs.Output

open Srs.Dynamic (OutputKind)

abbrev OutputSectionId := Nat

/-- A `u8` in the source: `ProgramSegmentId::new` panics from 256 on. -/
abbrev ProgramSegmentId := Nat

/-! ## 1. Sections -/

/-- `SectionKind`, without the names. -/
inductive SectionKind where
  | primary
  | secondary (primaryId : OutputSectionId)
  deriving DecidableEq

/-- `SectionOutputInfo`.  `secondaryOrder` is the priority of `SecondaryOrder::InitFini`. -/
structure SectionOutputInfo (Attributes : Type) where
  kind : SectionKind
  sectionAttributes : Attributes
  minAlignment : Alignment
  location : Option Nat
  secondaryOrder : Option Nat

/-- `OutputSections`: the sections are numbered, `infos` is only read below `numSections`. -/
structure OutputSections (Attributes : Type) where
  baseAddress : Nat
  numSections : Nat
  infos : OutputSectionId → SectionOutputInfo Attributes

/-- What a platform says of its segments and sections.  Its segment definitions are different
from one another. -/
structure Platform (Attributes Def : Type) where
  programSegmentDefs : List Def
  unconditionalSegmentDefs : List Def
  isLoadable : Def → Bool
  isWritable : Def → Bool
  isExecutable : Def → Bool
  shouldCutRwSegmentWhenEnding : Def → Bool
  shouldIncludeSection : Def → SectionOutputInfo Attributes → OutputSectionId → Bool
  isAlloc : Attributes → Bool
  hasDataInFile : Attributes → Bool
  /-- The cursors in the file and in memory when a LOAD segment starts. -/
  alignLoadSegmentStart : Def → Alignment → Nat → Nat → Nat × Nat
  programSegmentDefs_nodup : programSegmentDefs.Nodup

variable {Attributes Def : Type}

namespace OutputSections

variable (sections : OutputSections Attributes)

/-- The section that this one is merged into, if it is a secondary section. -/
def mergeTarget (id : OutputSectionId) : Option OutputSectionId :=
  match (sections.infos id).kind with
  | .primary => none
  | .secondary primaryId => some primaryId

def primaryOutputSection (id : OutputSectionId) : OutputSectionId :=
  (sections.mergeTarget id).getD id

/-- The map `secondary` that `output_order` fills: the sections that are merged into `primary`. -/
def secondary (primary : OutputSectionId) : List OutputSectionId :=
  (List.range sections.numSections).filter fun id => sections.mergeTarget id = some primary

def IsPrimary (id : OutputSectionId) : Prop := sections.mergeTarget id = none

instance (id : OutputSectionId) : Decidable (sections.IsPrimary id) :=
  inferInstanceAs (Decidable (_ = _))

def shouldIncludeInSegment (platform : Platform Attributes Def) (id : OutputSectionId)
    (segmentDef : Def) : Bool :=
  platform.shouldIncludeSection segmentDef (sections.infos id) id

end OutputSections

/-! ## 2. The builder -/

inductive OrderEvent where
  | segmentStart (id : ProgramSegmentId)
  | segmentEnd (id : ProgramSegmentId)
  | setLocation (address : Nat)
  | sectionOf (id : OutputSectionId)
  deriving DecidableEq

/-- `OutputOrderBuilder`.  `activeSegmentKinds` has a slot for each of the platform's segment
definitions. -/
structure OutputOrderBuilder (Def : Type) where
  events : List OrderEvent
  programSegments : List Def
  activeSegmentKinds : List (Option ProgramSegmentId)

/-- `ProgramSegments::add_segment`; `none` is the panic of `ProgramSegmentId::new`. -/
def addSegment (segments : List Def) (segmentDef : Def) :
    Option (ProgramSegmentId × List Def) :=
  if segments.length < 256 then some (segments.length, segments ++ [segmentDef]) else none

/-- What the loop over the segment definitions changes. -/
structure SegmentSwitch (Def : Type) where
  stop : List ProgramSegmentId
  start : List ProgramSegmentId
  active : List (Option ProgramSegmentId)
  segments : List Def

/-- The loop of `start_stop_segments_for_section`: each slot against whether its definition is to
be active. -/
def switchSegments (shouldBeActive : Def → Bool) :
    List Def → List (Option ProgramSegmentId) → List Def → Option (SegmentSwitch Def)
  | segmentDef :: defs, activeId :: active, segments =>
    match activeId, shouldBeActive segmentDef with
    | none, false =>
      (switchSegments shouldBeActive defs active segments).map fun s => { s with active := none :: s.active }
    | some id, true =>
      (switchSegments shouldBeActive defs active segments).map fun s =>
        { s with active := some id :: s.active }
    | none, true =>
      (addSegment segments segmentDef).bind fun (id, segments) =>
        (switchSegments shouldBeActive defs active segments).map fun s =>
          { s with start := id :: s.start, active := some id :: s.active }
    | some id, false =>
      (switchSegments shouldBeActive defs active segments).map fun s =>
        { s with stop := id :: s.stop, active := none :: s.active }
  | _, active, segments => some { stop := [], start := [], active := active, segments := segments }

namespace OutputOrderBuilder

variable (platform : Platform Attributes Def) (outputKind : OutputKind)
  (sections : OutputSections Attributes)

def new : OutputOrderBuilder Def where
  events := []
  programSegments := []
  activeSegmentKinds := List.replicate platform.programSegmentDefs.length none

/-- Whether the section ends the RELRO segment. -/
def shouldEndCurrentRwSegment (b : OutputOrderBuilder Def) (id : OutputSectionId) : Bool :=
  (b.activeSegmentKinds.zip platform.programSegmentDefs).any fun (activeId, segmentDef) =>
    activeId.isSome && platform.shouldCutRwSegmentWhenEnding segmentDef &&
      !sections.shouldIncludeInSegment platform id segmentDef

/-- Ends the active writable LOAD segment, if there is one. -/
def endRwLoadSegment (b : OutputOrderBuilder Def) : OutputOrderBuilder Def :=
  let defIndex := platform.programSegmentDefs.findIdx fun segmentDef =>
    platform.isLoadable segmentDef && platform.isWritable segmentDef &&
      !platform.isExecutable segmentDef
  match b.activeSegmentKinds[defIndex]? with
  | some (some id) =>
    { b with
      events := b.events ++ [.segmentEnd id]
      activeSegmentKinds := b.activeSegmentKinds.set defIndex none }
  | _ => b

/-- Which segments end and which start before the section. -/
def startStopSegmentsForSection (b : OutputOrderBuilder Def) (id : OutputSectionId) :
    Option (SegmentSwitch Def) :=
  if outputKind.isPartialObject then
    some { stop := [], start := [], active := b.activeSegmentKinds, segments := b.programSegments }
  else if (sections.mergeTarget id).isSome then
    -- Secondary sections don't begin or end segments.
    some { stop := [], start := [], active := b.activeSegmentKinds, segments := b.programSegments }
  else
    let located := (sections.infos id).location.isSome
    -- A section with a location ends all active segments first.
    let stop := if located then b.activeSegmentKinds.filterMap (·) else []
    let active := if located then b.activeSegmentKinds.map fun _ => none else b.activeSegmentKinds
    (switchSegments (sections.shouldIncludeInSegment platform id) platform.programSegmentDefs active
      b.programSegments).map fun s => { s with stop := stop ++ s.stop }

/-- The secondary sections of a primary one, by priority; those without one come last. -/
def secondaryEvents (id : OutputSectionId) : List OrderEvent :=
  let keyed := (sections.secondary id).map fun sid =>
    ((sections.infos sid).secondaryOrder.getD 65535, sid)
  (keyed.insertionSort fun a b => a.1 ≤ b.1).map fun (_, sid) => .sectionOf sid

/-- The jump to the section's location.  Sections without ALLOC are not placed in segments; their
location is left to `layout_section_parts`. -/
def locationEvents (id : OutputSectionId) : List OrderEvent :=
  match (sections.infos id).location with
  | some address =>
    if platform.isAlloc (sections.infos id).sectionAttributes then [.setLocation address] else []
  | none => []

def addSection (b : OutputOrderBuilder Def) (id : OutputSectionId) :
    Option (OutputOrderBuilder Def) :=
  -- When the RELRO segment ends, the writable LOAD segment ends too.
  let b := if b.shouldEndCurrentRwSegment platform sections id then b.endRwLoadSegment platform else b
  (b.startStopSegmentsForSection platform outputKind sections id).map fun s =>
    { events := b.events ++ s.stop.map .segmentEnd ++ locationEvents platform sections id
        ++ s.start.map .segmentStart ++ [.sectionOf id] ++ secondaryEvents sections id
      programSegments := s.segments
      activeSegmentKinds := s.active }

def addSections (b : OutputOrderBuilder Def) (ids : List OutputSectionId) :
    Option (OutputOrderBuilder Def) :=
  ids.foldlM (addSection platform outputKind sections) b

/-- The segments without content that are always emitted. -/
def addUnconditional : List Def → OutputOrderBuilder Def → Option (OutputOrderBuilder Def)
  | [], b => some b
  | segmentDef :: defs, b =>
    (addSegment b.programSegments segmentDef).bind fun (id, segments) =>
      addUnconditional defs
        { b with
          events := b.events ++ [.segmentStart id, .segmentEnd id]
          programSegments := segments }

/-- The segments that are still active end; the result is the order and the segments. -/
def build (b : OutputOrderBuilder Def) : Option (List OrderEvent × List Def) :=
  let b := { b with
    events := b.events ++ (b.activeSegmentKinds.filterMap (·)).map .segmentEnd
    activeSegmentKinds := b.activeSegmentKinds.map fun _ => none }
  (if outputKind.isPartialObject then some b
    else addUnconditional platform.unconditionalSegmentDefs b).map
      fun b => (b.events, b.programSegments)

end OutputOrderBuilder

open OutputOrderBuilder in
/-- The order of a sequence of primary sections. -/
def buildOutputOrder (platform : Platform Attributes Def) (outputKind : OutputKind)
    (sections : OutputSections Attributes) (ids : List OutputSectionId) :
    Option (List OrderEvent × List Def) :=
  (addSections platform outputKind sections (new platform) ids).bind (build platform outputKind)

/-! ## 3. ELF -/

/-- The segment types that `elf.rs` makes segments of. -/
inductive SegmentType where
  | phdr | interp | note | gnuProperty | load | tls | gnuEhFrame | gnuSframe | dynamic | gnuRelro
  | riscvAttributes | gnuStack
  deriving DecidableEq

structure SegmentFlags where
  writable : Bool
  executable : Bool
  deriving DecidableEq

structure ProgramSegmentDef where
  segmentType : SegmentType
  segmentFlags : SegmentFlags
  deriving DecidableEq

/-- The flags of a section that matter here. -/
structure SectionFlags where
  alloc : Bool
  write : Bool
  execinstr : Bool
  tls : Bool
  deriving DecidableEq

inductive SectionType where
  | nobits
  | note
  | other (raw : UInt32)
  deriving DecidableEq

structure SectionAttributes where
  flags : SectionFlags
  ty : SectionType
  deriving DecidableEq

/-- The details of the built-in sections that decide about their segments. -/
structure BuiltInSectionDetails where
  isRelro : Bool
  targetSegmentType : Option SegmentType

/-- All segments are readable. -/
def readable : SegmentFlags := { writable := false, executable := false }

def PROGRAM_SEGMENT_DEFS : List ProgramSegmentDef := [
  ⟨.phdr, readable⟩,
  ⟨.interp, readable⟩,
  ⟨.note, readable⟩,
  ⟨.gnuProperty, readable⟩,
  ⟨.load, readable⟩,
  ⟨.load, { readable with executable := true }⟩,
  ⟨.load, { readable with writable := true }⟩,
  ⟨.tls, readable⟩,
  ⟨.gnuEhFrame, readable⟩,
  ⟨.gnuSframe, readable⟩,
  ⟨.dynamic, { readable with writable := true }⟩,
  ⟨.gnuRelro, readable⟩,
  ⟨.riscvAttributes, readable⟩]

def STACK_SEGMENT_DEF : ProgramSegmentDef := ⟨.gnuStack, { readable with writable := true }⟩

namespace ProgramSegmentDef

def isLoadable (d : ProgramSegmentDef) : Bool := d.segmentType = .load

def shouldCutRwSegmentWhenEnding (d : ProgramSegmentDef) : Bool := d.segmentType = .gnuRelro

/-- `builtIn` is the table of the built-in sections. -/
def shouldIncludeSection (builtIn : OutputSectionId → Option BuiltInSectionDetails)
    (d : ProgramSegmentDef) (info : SectionOutputInfo SectionAttributes) (id : OutputSectionId) :
    Bool :=
  match d.segmentType with
  | .note => info.sectionAttributes.ty = .note
  | .tls => info.sectionAttributes.flags.tls
  | .load =>
    info.sectionAttributes.flags.alloc
      && info.sectionAttributes.flags.write == d.segmentFlags.writable
      && info.sectionAttributes.flags.execinstr == d.segmentFlags.executable
  | .gnuRelro =>
    info.sectionAttributes.flags.tls || (builtIn id).any (·.isRelro)
  | other => ((builtIn id).bind (·.targetSegmentType)) = some other

end ProgramSegmentDef

/-- TLS sections count as having data in the file even if they are NOBITS. -/
def hasDataInFile (attributes : SectionAttributes) : Bool :=
  attributes.ty ≠ .nobits || attributes.flags.tls

def elf (builtIn : OutputSectionId → Option BuiltInSectionDetails) :
    Platform SectionAttributes ProgramSegmentDef where
  programSegmentDefs := PROGRAM_SEGMENT_DEFS
  unconditionalSegmentDefs := [STACK_SEGMENT_DEF]
  isLoadable := ProgramSegmentDef.isLoadable
  isWritable d := d.segmentFlags.writable
  isExecutable d := d.segmentFlags.executable
  shouldCutRwSegmentWhenEnding := ProgramSegmentDef.shouldCutRwSegmentWhenEnding
  shouldIncludeSection := ProgramSegmentDef.shouldIncludeSection builtIn
  isAlloc attributes := attributes.flags.alloc
  hasDataInFile := hasDataInFile
  alignLoadSegmentStart _ segmentAlignment fileOffset memOffset :=
    (fileOffset, segmentAlignment.alignModulo fileOffset memOffset)
  programSegmentDefs_nodup := by decide

end Srs.Output
