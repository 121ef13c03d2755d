/-
# The code signature of a Mach-O output

`macho_writer.rs`: `write_code_signature` hashes the output page by page and writes the signature
section, a super blob with one code directory and the hashes.  `refresh_code_signature` is given
the ranges of an output that were patched since; it finds the signature through the load commands,
checks that it has the form that the first one writes, and rewrites the hashes of the patched pages
only.

SHA-256 is a parameter, and so is the walk over the load commands, which the `object` crate does:
it gives each command or an error.  The output is state that a failure keeps: `OutputM` says what
is in the buffer when an error is returned.
-/
import Srs.Lib.BeWords
import Srs.Lib.Buffers
import Srs.Lib.Intervals
import Srs.Lib.SortDedup
import Srs.MachO.Failures
import Srs.Output.Parts

namespace Srs.MachO

open Buffers BeWords
open Output (OutputRecordLayout OutputSectionId)

/-! ## 1. The format -/

def CS_HASH_SIZE : Nat := 32
def CS_BLOCK_SIZE_EXP : UInt8 := 12
def CS_BLOCK_SIZE : Nat := 4096
def CSMAGIC_EMBEDDED_SIGNATURE : UInt32 := 0xfade0cc0
def CSSLOT_CODEDIRECTORY : UInt32 := 0
def CSMAGIC_CODEDIRECTORY : UInt32 := 0xfade0c02
def CS_SUPPORTSEXECSEG : UInt32 := 0x20400
def CS_ADHOC : UInt32 := 0x00000002
def CS_LINKER_SIGNED : UInt32 := 0x00020000
def CS_HASHTYPE_SHA256 : UInt8 := 2
def CS_EXECSEG_MAIN_BINARY : UInt64 := 0x1

/-- `b"a.out"`. -/
def CS_IDENTIFIER_STRING : Bytes := [97, 46, 111, 117, 116]

structure CodeSignatureSuperBlob where
  magic : UInt32
  length : UInt32
  count : UInt32

structure CodeSignatureBlobIndex where
  type : UInt32
  offset : UInt32
  padding : UInt32

structure CodeSignatureCodeDirectory where
  magic : UInt32
  length : UInt32
  version : UInt32
  flags : UInt32
  hashOffset : UInt32
  identOffset : UInt32
  nSpecialSlots : UInt32
  nCodeSlots : UInt32
  codeLimit : UInt32
  hashSize : UInt8
  hashType : UInt8
  platform : UInt8
  pageSize : UInt8
  spare2 : UInt32
  scatterOffset : UInt32
  teamOffset : UInt32
  spare3 : UInt32
  codeLimit64 : UInt64
  execSegBase : UInt64
  execSegLimit : UInt64
  execSegFlags : UInt64

namespace CodeSignatureSuperBlob

/-- `size_of::<CodeSignatureSuperBlob>()`. -/
def size : Nat := 12

def toBytes (blob : CodeSignatureSuperBlob) : Bytes :=
  be32 blob.magic ++ (be32 blob.length ++ be32 blob.count)

/-- `mut_from_prefix`. -/
def fromPrefix (bytes : Bytes) : Option CodeSignatureSuperBlob :=
  if bytes.length < size then none
  else some
    { magic := be32At bytes 0
      length := be32At bytes 4
      count := be32At bytes 8 }

@[simp] theorem length_toBytes (blob : CodeSignatureSuperBlob) : blob.toBytes.length = size := by
  simp [toBytes, size]

end CodeSignatureSuperBlob

namespace CodeSignatureBlobIndex

/-- `size_of::<CodeSignatureBlobIndex>()`. -/
def size : Nat := 12

def toBytes (blob : CodeSignatureBlobIndex) : Bytes :=
  be32 blob.type ++ (be32 blob.offset ++ be32 blob.padding)

/-- `mut_from_prefix_with_elems` for one element. -/
def fromPrefix (bytes : Bytes) : Option CodeSignatureBlobIndex :=
  if bytes.length < size then none
  else some
    { type := be32At bytes 0
      offset := be32At bytes 4
      padding := be32At bytes 8 }

@[simp] theorem length_toBytes (blob : CodeSignatureBlobIndex) : blob.toBytes.length = size := by
  simp [toBytes, size]

end CodeSignatureBlobIndex

namespace CodeSignatureCodeDirectory

/-- `size_of::<CodeSignatureCodeDirectory>()`. -/
def size : Nat := 88

def toBytes (dir : CodeSignatureCodeDirectory) : Bytes :=
  be32 dir.magic ++ (be32 dir.length ++ (be32 dir.version ++ (be32 dir.flags ++
    (be32 dir.hashOffset ++ (be32 dir.identOffset ++ (be32 dir.nSpecialSlots ++
    (be32 dir.nCodeSlots ++ (be32 dir.codeLimit ++
    ([dir.hashSize, dir.hashType, dir.platform, dir.pageSize] ++ (be32 dir.spare2 ++
    (be32 dir.scatterOffset ++ (be32 dir.teamOffset ++ (be32 dir.spare3 ++ (be64 dir.codeLimit64 ++
    (be64 dir.execSegBase ++ (be64 dir.execSegLimit ++ be64 dir.execSegFlags))))))))))))))))

/-- `mut_from_prefix_with_elems` for one element, of which only these fields are read. -/
structure Read where
  magic : UInt32
  hashOffset : UInt32
  nCodeSlots : UInt32
  codeLimit : UInt32
  hashSize : UInt8
  hashType : UInt8
  pageSize : UInt8

def fromPrefix (bytes : Bytes) : Option Read :=
  if bytes.length < size then none
  else some
    { magic := be32At bytes 0
      hashOffset := be32At bytes 16
      nCodeSlots := be32At bytes 28
      codeLimit := be32At bytes 32
      hashSize := bytes.getD 36 0
      hashType := bytes.getD 37 0
      pageSize := bytes.getD 39 0 }

@[simp] theorem length_toBytes (dir : CodeSignatureCodeDirectory) : dir.toBytes.length = size := by
  simp [toBytes, size]

end CodeSignatureCodeDirectory

def CS_BLOB_HEADERS_SIZE : Nat := CodeSignatureSuperBlob.size + CodeSignatureBlobIndex.size

/-- The identifier with its terminator, up to a multiple of 16. -/
def CS_PADDED_FILENAME_SIZE : Nat := divCeil (CS_IDENTIFIER_STRING.length + 1) 16 * 16

/-! ## 2. Signing -/

/-- A SHA-256 digest. -/
abbrev Digest := { bytes : Bytes // bytes.length = CS_HASH_SIZE }

/-- The layout as far as the signature depends on it. -/
structure MachOLayout where
  sectionLayouts : List OutputRecordLayout
  codeSignature : OutputSectionId
  textSegmentSize : Option OutputRecordLayout

/-- `section_layouts.get(CODE_SIGNATURE)`, which panics for a section that is not there. -/
def MachOLayout.codeSignatureSection (layout : MachOLayout) : Except Failure OutputRecordLayout :=
  okOr .panic layout.sectionLayouts[layout.codeSignature]?

structure SectionAllocation where
  id : OutputSectionId
  offset : Nat
  size : Nat

/-- The sections in the order of their place in the file. -/
def sectionAllocations (layout : MachOLayout) : List SectionAllocation :=
  (layout.sectionLayouts.zipIdx.map fun s => ⟨s.2, s.1.fileOffset, s.1.fileSize⟩).mergeSort
    fun a b => a.offset < b.offset ||
      (a.offset = b.offset && a.offset + a.size ≤ b.offset + b.size)

/-- `data.split_off_mut(..n).unwrap()`: the first `n` bytes, and what is left. -/
def splitOff (n : Nat) (data : Bytes) : Except Failure (Bytes × Bytes) :=
  if n ≤ data.length then .ok (data.take n, data.drop n) else .error .panic

theorem splitOff_eq_ok {n : Nat} {data front rest : Bytes} :
    splitOff n data = .ok (front, rest) ↔
      n ≤ data.length ∧ front = data.take n ∧ rest = data.drop n := by
  unfold splitOff
  split <;> simp_all [eq_comm]

/-- The loop of `split_output_into_sections`: `data` is what is left of the output from `offset`
on. -/
def splitSections (offset : Nat) (data : Bytes) :
    List SectionAllocation → Except Failure (List (OutputSectionId × Bytes))
  | [] => .ok []
  | a :: rest => do
    orPanic (offset ≤ a.offset)
    let (_, data) ← splitOff (a.offset - offset) data
    let (buffer, data) ← splitOff a.size data
    let buffers ← splitSections (a.offset + a.size) data rest
    .ok ((a.id, buffer) :: buffers)

/-- The buffer that `split_output_into_sections` gives a section. -/
def sectionBuffer (layout : MachOLayout) (out : Bytes) (id : OutputSectionId) :
    Except Failure Bytes := do
  let buffers ← splitSections 0 out (sectionAllocations layout)
  okOr .panic ((buffers.find? fun b => b.1 = id).map Prod.snd)

/-- `par_chunks(CS_BLOCK_SIZE)`. -/
def pages (content : Bytes) : List Bytes :=
  (List.range (divCeil content.length CS_BLOCK_SIZE)).map fun i =>
    (content.drop (i * CS_BLOCK_SIZE)).take CS_BLOCK_SIZE

def superBlob (signature : OutputRecordLayout) : CodeSignatureSuperBlob where
  magic := CSMAGIC_EMBEDDED_SIGNATURE
  length := UInt32.ofNat signature.fileSize
  count := 1

def blobIndex : CodeSignatureBlobIndex where
  type := CSSLOT_CODEDIRECTORY
  offset := UInt32.ofNat CS_BLOB_HEADERS_SIZE
  padding := 0

def codeDirectory (signature text : OutputRecordLayout) : CodeSignatureCodeDirectory where
  magic := CSMAGIC_CODEDIRECTORY
  length := UInt32.ofNat (signature.fileSize - CS_BLOB_HEADERS_SIZE)
  version := CS_SUPPORTSEXECSEG
  flags := CS_ADHOC ||| CS_LINKER_SIGNED
  hashOffset := UInt32.ofNat (CodeSignatureCodeDirectory.size + CS_PADDED_FILENAME_SIZE)
  identOffset := UInt32.ofNat CodeSignatureCodeDirectory.size
  nSpecialSlots := 0
  nCodeSlots := UInt32.ofNat (divCeil signature.fileOffset CS_BLOCK_SIZE)
  codeLimit := UInt32.ofNat signature.fileOffset
  hashSize := UInt8.ofNat CS_HASH_SIZE
  hashType := CS_HASHTYPE_SHA256
  platform := 0
  pageSize := CS_BLOCK_SIZE_EXP
  spare2 := 0
  scatterOffset := 0
  teamOffset := 0
  spare3 := 0
  codeLimit64 := 0
  execSegBase := UInt64.ofNat text.fileOffset
  execSegLimit := UInt64.ofNat text.fileSize
  execSegFlags := CS_EXECSEG_MAIN_BINARY

/-- The identifier, padded with zeros. -/
def identifier : Bytes :=
  CS_IDENTIFIER_STRING ++ List.replicate (CS_PADDED_FILENAME_SIZE - CS_IDENTIFIER_STRING.length) 0

/-- What stands before the hashes. -/
def signatureHeaders (signature text : OutputRecordLayout) : Bytes :=
  (superBlob signature).toBytes ++ (blobIndex.toBytes ++
    ((codeDirectory signature text).toBytes ++ identifier))

section

variable (digest : Bytes → Digest)

def calculatedHashes (content : Bytes) : Bytes := (pages content).flatMap fun page => digest page

/-- `write_code_signature`, for what it leaves when it succeeds.  The headers are taken off the
front of the section one by one; `split_at_mut` and `copy_from_slice` panic where the section has
another size than the headers and the hashes. -/
def writeCodeSignature (layout : MachOLayout) (out : Bytes) : Except Failure Bytes := do
  let signature ← layout.codeSignatureSection
  let content ← okOr .panic (slice out 0 signature.fileOffset)
  let hashes := calculatedHashes digest content
  let buffer ← sectionBuffer layout out layout.codeSignature
  ensure (CodeSignatureSuperBlob.size ≤ buffer.length) "Invalid CODE_SIGNATURE allocation"
  ensure (CS_BLOB_HEADERS_SIZE ≤ buffer.length) "Invalid CODE_SIGNATURE allocation"
  ensure (CS_BLOB_HEADERS_SIZE + CodeSignatureCodeDirectory.size ≤ buffer.length)
    "Invalid CODE_SIGNATURE allocation"
  let headersSize :=
    CS_BLOB_HEADERS_SIZE + CodeSignatureCodeDirectory.size + CS_PADDED_FILENAME_SIZE
  orPanic (headersSize ≤ buffer.length)
  let text ← okOr (.error "Text segment is mandatory") layout.textSegmentSize
  orPanic (buffer.length - headersSize = hashes.length)
  .ok (splice out signature.fileOffset (signatureHeaders signature text ++ hashes))

end

/-! ## 3. The load commands -/

def LC_CODE_SIGNATURE : UInt32 := 0x1d

/-- `LinkeditDataCommand`. -/
structure CodeSignatureCommand where
  cmd : UInt32
  cmdsize : UInt32
  dataoff : UInt32
  datasize : UInt32

/-- `write_code_signature_command`. -/
def writeCodeSignatureCommand (signature : OutputRecordLayout) : CodeSignatureCommand where
  cmd := LC_CODE_SIGNATURE
  cmdsize := 16
  dataoff := UInt32.ofNat signature.fileOffset
  datasize := UInt32.ofNat signature.fileSize

/-- A load command as the walk gives it: `data` is its data read as a `LinkeditDataCommand`, which
fails for data that is too short. -/
structure LoadCommand where
  cmd : UInt32
  data : Except Failure CodeSignatureCommand

/-- The walk over the load commands: the header may not parse, and after some commands the next
one may not parse. -/
abbrev LoadCommands := Bytes → Except Failure (List (Except Failure LoadCommand))

/-- The loop over the load commands. -/
def findCodeSignature (outputLength : Nat) (found : Option Interval) :
    List (Except Failure LoadCommand) → Except Failure (Option Interval)
  | [] => .ok found
  | next :: rest => do
    let command ← next
    if command.cmd = LC_CODE_SIGNATURE then
      ensure (found = none) "At most one Mach-O code signature command expected"
      let codeSignatureCommand ← command.data
      let start := codeSignatureCommand.dataoff.toNat
      let size := codeSignatureCommand.datasize.toNat
      let stop ← checkedAdd start size "Mach-O code signature range overflow"
      ensure (stop ≤ outputLength) "Mach-O code signature range exceeds output size"
      findCodeSignature outputLength (some ⟨start, stop⟩) rest
    else
      findCodeSignature outputLength found rest

def codeSignatureRange (loadCommands : LoadCommands) (output : Bytes) :
    Except Failure Interval := do
  let commands ← loadCommands output
  let found ← findCodeSignature output.length none commands
  okOr (.error "Missing Mach-O code signature command") found

/-! ## 4. Refreshing -/

/-- The pages that a range touches. -/
def pagesOf (range : Interval) : List Nat :=
  if range.start < range.stop then
    List.range' (range.start / CS_BLOCK_SIZE)
      (divCeil range.stop CS_BLOCK_SIZE - range.start / CS_BLOCK_SIZE)
  else []

/-- The pages of all changed ranges, before they are sorted. -/
def rangePages (limit : Nat) : List Interval → Except Failure (List Nat)
  | [] => .ok []
  | range :: rest => do
    ensure (range.start ≤ range.stop ∧ range.stop ≤ limit)
      "Mach-O patched range lies outside signed content"
    let pages ← rangePages limit rest
    .ok (pagesOf range ++ pages)

/-- Where the hashes lie in the signature, after all of it was checked. -/
def hashesRange (codeSignature : Bytes) (signedLength : Nat) : Except Failure Interval := do
  let superBlob ← okOr (.error "Invalid CODE_SIGNATURE allocation")
    (CodeSignatureSuperBlob.fromPrefix codeSignature)
  ensure (superBlob.magic = CSMAGIC_EMBEDDED_SIGNATURE) "Invalid Mach-O embedded signature magic"
  ensure (superBlob.length.toNat = codeSignature.length)
    "Unexpected Mach-O embedded signature size"
  ensure (superBlob.count = 1) "Unsupported Mach-O embedded signature blob count"
  let blobIndex ← okOr (.error "Invalid CODE_SIGNATURE allocation")
    (CodeSignatureBlobIndex.fromPrefix (codeSignature.drop CodeSignatureSuperBlob.size))
  ensure (blobIndex.type = CSSLOT_CODEDIRECTORY) "Unsupported Mach-O code signature blob type"
  let codeDirectoryOffset := blobIndex.offset.toNat
  let codeDirectoryBytes ← okOr (.error "Invalid Mach-O code directory offset")
    (slice codeSignature codeDirectoryOffset codeSignature.length)
  let codeDirectory ← okOr (.error "Invalid CODE_SIGNATURE allocation")
    (CodeSignatureCodeDirectory.fromPrefix codeDirectoryBytes)
  ensure (codeDirectory.magic = CSMAGIC_CODEDIRECTORY) "Invalid Mach-O code directory magic"
  ensure (codeDirectory.hashType = CS_HASHTYPE_SHA256
      ∧ codeDirectory.hashSize = UInt8.ofNat CS_HASH_SIZE
      ∧ codeDirectory.pageSize = CS_BLOCK_SIZE_EXP)
    "Unsupported Mach-O code signature hash format"
  ensure (codeDirectory.codeLimit.toNat = signedLength
      ∧ codeDirectory.nCodeSlots.toNat = divCeil signedLength CS_BLOCK_SIZE)
    "Unexpected Mach-O signed content range"
  let hashesStart ← checkedAdd codeDirectoryOffset codeDirectory.hashOffset.toNat
    "Mach-O code signature hash range overflow"
  let hashesLength ← checkedMul (divCeil signedLength CS_BLOCK_SIZE) CS_HASH_SIZE
    "Mach-O code signature hash range overflow"
  let hashesEnd ← checkedAdd hashesStart hashesLength "Mach-O code signature hash range overflow"
  ensure (hashesStart ≤ hashesEnd ∧ hashesEnd ≤ codeSignature.length)
    "Invalid Mach-O code signature hash range"
  .ok ⟨hashesStart, hashesEnd⟩

section

variable (loadCommands : LoadCommands) (digest : Bytes → Digest)

/-- The hashes of the changed pages.  The last page may be short. -/
def calculateHashes (output : Bytes) (limit : Nat) :
    List Nat → Except Failure (List (Nat × Digest))
  | [] => .ok []
  | pageIndex :: rest => do
    let start := pageIndex * CS_BLOCK_SIZE
    let page ← okOr .panic (slice output start (min (start + CS_BLOCK_SIZE) limit))
    let hashes ← calculateHashes output limit rest
    .ok ((pageIndex, digest page) :: hashes)

/-- What is known when the first hash is written. -/
structure RefreshPlan where
  hashes : List (Nat × Digest)
  /-- Where the slice of all hashes lies in the output. -/
  slots : Interval

/-- The part of `refresh_code_signature` that only reads. -/
def refreshPlan (output : Bytes) (changedRanges : List Interval) : Except Failure RefreshPlan := do
  let range ← codeSignatureRange loadCommands output
  let changedPages ← rangePages range.start changedRanges
  let hashes ← calculateHashes digest output range.start (sortDedup changedPages)
  let codeSignature ← okOr (.error "Invalid CODE_SIGNATURE range")
    (slice output range.start range.stop)
  let hashesRange ← hashesRange codeSignature range.start
  let outputHashesStart ← checkedAdd range.start hashesRange.start
    "Mach-O code signature hash range overflow"
  .ok ⟨hashes, ⟨outputHashesStart, outputHashesStart + (hashesRange.stop - hashesRange.start)⟩⟩

/-- A computation on the output, which keeps what it wrote when it fails. -/
abbrev OutputM := ExceptT Failure (StateM Bytes)

section

variable {α β : Type}

/-- What a computation gives, and the output after it. -/
def OutputM.on (x : OutputM α) (output : Bytes) : Except Failure α × Bytes := x.run.run output

variable {x : OutputM α} {f : α → OutputM β} {a : α}

variable {output output' : Bytes}

theorem on_bind_of_ok
    (h : x.on output = (.ok a, output')) : (x >>= f).on output = (f a).on output' := by
  have hrun : (ExceptT.run x).run output = (.ok a, output') := h
  rw [OutputM.on, ExceptT.run_bind, StateT.run_bind, hrun]
  rfl

variable {e : Failure}

theorem on_bind_of_error
    (h : x.on output = (.error e, output')) : (x >>= f).on output = (.error e, output') := by
  have hrun : (ExceptT.run x).run output = (.error e, output') := h
  rw [OutputM.on, ExceptT.run_bind, StateT.run_bind, hrun]
  rfl

theorem on_liftM_of_ok {x : Except Failure α} (h : x = .ok a) (output : Bytes) :
    (liftM x : OutputM α).on output = (.ok a, output) := by
  subst h
  rfl

theorem on_liftM_of_error {x : Except Failure α} (h : x = .error e)
    (output : Bytes) : (liftM x : OutputM α).on output = (.error e, output) := by
  subst h
  rfl

theorem on_get (output : Bytes) : (get : OutputM Bytes).on output = (.ok output, output) := rfl

theorem on_modify (f : Bytes → Bytes) (output : Bytes) :
    (modify f : OutputM PUnit).on output = (.ok ⟨⟩, f output) := rfl

end

/-- The loop that writes the hashes.  It gives the ranges that it wrote. -/
def writeHashes (slots : Interval) : List (Nat × Digest) → OutputM (List Interval)
  | [] => pure []
  | (pageIndex, hash) :: rest => do
    let hashStart := pageIndex * CS_HASH_SIZE
    let hashEnd := hashStart + CS_HASH_SIZE
    liftM (orPanic (hashEnd ≤ slots.stop - slots.start))
    modify fun output => splice output (slots.start + hashStart) hash
    let outputHashStart ← liftM (checkedAdd slots.start hashStart
      "Mach-O code signature hash range overflow")
    let outputHashEnd ← liftM (checkedAdd slots.start hashEnd
      "Mach-O code signature hash range overflow")
    let ranges ← writeHashes slots rest
    pure (⟨outputHashStart, outputHashEnd⟩ :: ranges)

/-- `refresh_code_signature`. -/
def refreshCodeSignature (changedRanges : List Interval) : OutputM (List Interval) := do
  let plan ← liftM (refreshPlan loadCommands digest (← get) changedRanges)
  writeHashes plan.slots plan.hashes

end

end Srs.MachO
