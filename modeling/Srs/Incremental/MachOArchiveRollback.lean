/-
# Undoing Mach-O archive transactions

A cohort of archive members is switched on by its forward patches and off by its rollback patches.
So a rollback patch holds the bytes that were there without the cohort.  When members are exchanged,
a new cohort is switched on in the link in which an old one is switched off, and the bytes without
the new one are those that the old one's rollback patches leave.  Later links change the output
under the patches of both, and both are refreshed.

`usize` has 64 bits, as offsets in the file have, so that an offset is never too large for it.
-/
import Srs.Incremental.InputLine
import Srs.Lib.Buffers

namespace Srs.Incremental

open Buffers

/-! ## 1. Patches and the output -/

/-- Where a patch starts and ends in the output. -/
def patchRange (patch : StoredOutputPatch) (overflowed : String) : Result (Nat × Nat) := do
  let start := patch.outputOffset.toNat
  let stop := start + patch.data.length
  failIf (2 ^ 64 ≤ stop) overflowed
  return (start, stop)

/-- The output after a patch was written. -/
def applyStoredPatch (output : Bytes) (patch : StoredOutputPatch) : Bytes :=
  splice output patch.outputOffset.toNat patch.data

/-- The output after patches were written one after the other. -/
def applyStoredPatches (output : Bytes) (patches : List StoredOutputPatch) : Bytes :=
  patches.foldl applyStoredPatch output

/-- The bytes in the range of a patch. -/
def bytesUnder (output : Bytes) (patch : StoredOutputPatch) : Option Bytes :=
  slice output patch.outputOffset.toNat (patch.outputOffset.toNat + patch.data.length)

/-- `stored_output_patches_match`, for one of the patches. -/
def storedOutputPatchMatches (output : Bytes) (patch : StoredOutputPatch) : Bool :=
  patch.outputOffset.toNat + patch.data.length < 2 ^ 64 && bytesUnder output patch = some patch.data

def storedOutputPatchesMatch (patches : List StoredOutputPatch) (output : Bytes) : Bool :=
  patches.all (storedOutputPatchMatches output)

/-! ## 2. A new cohort -/

/-- One retired rollback patch in the loop of `stored_macho_archive_rollback_patch`, for the range
of the forward patch. -/
def composeRollback (start stop : Nat) (composed : Option Bytes) (rollback : StoredOutputPatch) :
    Result (Option Bytes) := do
  let (rollbackStart, rollbackStop) ←
    patchRange rollback "retired Mach-O archive rollback range overflowed"
  if rollbackStop ≤ start ∨ stop ≤ rollbackStart then return composed
  else do
    failIf (start ≠ rollbackStart ∨ stop ≠ rollbackStop)
      "new Mach-O archive ownership partially overlaps a retired rollback patch"
    failIf (composed.any (· ≠ rollback.data) = true)
      "retired Mach-O archive rollback patches conflict"
    return some rollback.data

def storedMachoArchiveRollbackPatch (forward : StoredOutputPatch) (previousOutput : Bytes)
    (retired : List MachOArchiveActivationState) : Result StoredOutputPatch := do
  let (start, stop) ← patchRange forward "Mach-O archive rollback patch range overflowed"
  let composed ← (retired.flatMap (·.rollbackPatches)).foldlM (composeRollback start stop) none
  let data ← context (composed.or (slice previousOutput start stop))
    "Mach-O archive rollback patch is outside output"
  return { outputOffset := forward.outputOffset, data }

/-! ## 3. The unwind ranges -/

/-- What is read of a section of the output.  A name that cannot be read is none. -/
structure OutputSection where
  name : Option Text
  segmentName : Option Text
  fileRange : Option (UInt64 × UInt64)

def isTextSection (name : Text) (outputSection : OutputSection) : Bool :=
  outputSection.name = some name && outputSection.segmentName = some "__TEXT".toList

/-- The range of one unwind section, where there is one. -/
def unwindRangeOf (sections : List OutputSection) (name : Text) : Result (Option (Nat × Nat)) :=
  match sections.filter (isTextSection name) with
  | [] => .ok none
  | [found] => do
    let (start, size) ← context found.fileRange
      "Mach-O archive transaction unwind section has no file range"
    failIf (2 ^ 64 ≤ start.toNat + size.toNat)
      "Mach-O archive transaction unwind section overflowed"
    return some (start.toNat, start.toNat + size.toNat)
  | _ => .error "Mach-O archive transaction unwind section is ambiguous"

/-- `macho_unwind_output_ranges`.  The sections are those that an object reader finds. -/
def machoUnwindOutputRanges (readSections : Bytes → Option (List OutputSection)) (output : Bytes) :
    Result (List (Nat × Nat)) := do
  let sections ← context (readSections output)
    "failed to parse Mach-O archive transaction output"
  let ranges ← ["__eh_frame".toList, "__unwind_info".toList].mapM (unwindRangeOf sections)
  return ranges.reduceOption

/-- The unwind ranges that matter to a state: those of the output, if unwind versions go with it. -/
def unwindRanges (readSections : Bytes → Option (List OutputSection))
    (state : MachOArchiveActivationState) (output : Bytes) : Result (List (Nat × Nat)) :=
  if state.unwindTransaction.isSome then machoUnwindOutputRanges readSections output else .ok []

/-- The patch and one of the ranges have a byte in common. -/
def Touches (patch : StoredOutputPatch) (ranges : List (Nat × Nat)) : Prop :=
  ∃ range ∈ ranges, patch.outputOffset.toNat < range.2 ∧
    range.1 < patch.outputOffset.toNat + patch.data.length

instance (patch : StoredOutputPatch) (ranges : List (Nat × Nat)) :
    Decidable (Touches patch ranges) :=
  inferInstanceAs (Decidable (∃ range ∈ ranges, _ ∧ _))

def storedOutputPatchOverlapsRanges (patch : StoredOutputPatch) (ranges : List (Nat × Nat)) :
    Result Bool := do
  let _ ← patchRange patch "Mach-O archive transaction patch range overflowed"
  return decide (Touches patch ranges)

/-! ## 4. Dormant states -/

structure RetiredMachOArchiveStateRef where
  inputIndex : Nat
  stateIndex : Nat
  deriving DecidableEq

/-- The forward patches of the active states, with their states. -/
def activeForwards (states : List MachOArchiveActivationState) :
    List (MachOArchiveActivationState × StoredOutputPatch) :=
  (states.filter (·.active)).flatMap fun active => active.forwardPatches.map (active, ·)

/-- One forward patch in the search for the replacement of a range. -/
def replacementStep (start stop : Nat) (found : Option Bytes)
    (owned : MachOArchiveActivationState × StoredOutputPatch) : Result (Option Bytes) := do
  let (forwardStart, forwardStop) ←
    patchRange owned.2 "active Mach-O archive replacement range overflowed"
  if forwardStop ≤ start ∨ stop ≤ forwardStart then return found
  else do
    failIf (machoArchiveTransactionPatchesMatch owned.1 = false)
      "active Mach-O archive replacement is incomplete"
    failIf (start ≠ forwardStart ∨ stop ≠ forwardStop)
      "active Mach-O archive replacement partially shadows a newly retired rollback"
    failIf (found.isSome = true)
      "active Mach-O archive replacements ambiguously shadow a newly retired rollback"
    return some owned.2.data

/-- What one rollback patch is refreshed with, if it has to be. -/
def refreshedData (states : List MachOArchiveActivationState) (unwind : List (Nat × Nat))
    (currentOutput : Bytes) (rollback : StoredOutputPatch) : Result (Option Bytes) := do
  let (start, stop) ← patchRange rollback "newly retired Mach-O rollback range overflowed"
  let actual ← context (slice currentOutput start stop)
    "newly retired Mach-O rollback range is outside output"
  let exactReplacement ← (activeForwards states).foldlM (replacementStep start stop) none
  match exactReplacement with
  | some replacement =>
    if actual = replacement ∧ actual = rollback.data then return none
    else if actual = replacement then do
      let overlaps ← storedOutputPatchOverlapsRanges rollback unwind
      failIf (overlaps = true)
        "cannot refresh a proof-bearing Mach-O archive semantic unwind rollback"
      return some actual
    else .error "active Mach-O archive replacement differs from finalized output"
  | none =>
    if actual = rollback.data then return none
    else .error "newly retired Mach-O archive output changed without an exact replacement"

/-- A rollback patch that gets new data. -/
structure RollbackUpdate where
  stateRef : RetiredMachOArchiveStateRef
  rollbackIndex : Nat
  data : Bytes

/-- The updates of a state, from its rollback patches with their indices. -/
def rollbackUpdates (states : List MachOArchiveActivationState) (unwind : List (Nat × Nat))
    (currentOutput : Bytes) (stateRef : RetiredMachOArchiveStateRef) :
    List (StoredOutputPatch × Nat) → Result (List RollbackUpdate)
  | [] => .ok []
  | (rollback, rollbackIndex) :: rest => do
    let data ← refreshedData states unwind currentOutput rollback
    let later ← rollbackUpdates states unwind currentOutput stateRef rest
    return (data.map (RollbackUpdate.mk stateRef rollbackIndex)).toList ++ later

section

variable (readSections : Bytes → Option (List OutputSection))

/-- The loop over the states. -/
def dormantUpdates (inputFiles : List FileState) (currentOutput : Bytes)
    (seen : List RetiredMachOArchiveStateRef) :
    List RetiredMachOArchiveStateRef → Result (List RollbackUpdate)
  | [] => .ok []
  | retiredRef :: rest => do
    failIf (retiredRef ∈ seen) "newly retired Mach-O archive ownership is duplicated"
    let patch ← context ((inputFiles[retiredRef.inputIndex]?).bind (·.patch))
      "newly retired Mach-O archive ownership is missing"
    let retired ← context
      ((patch.machoArchiveMembers[retiredRef.stateIndex]?).filter (!·.active))
      "newly retired Mach-O archive ownership changed"
    failIf (machoArchiveTransactionPatchesMatch retired = false)
      "newly retired Mach-O archive transaction is incomplete"
    let unwind ← unwindRanges readSections retired currentOutput
    let updates ← rollbackUpdates patch.machoArchiveMembers unwind currentOutput retiredRef
      retired.rollbackPatches.zipIdx
    let later ← dormantUpdates inputFiles currentOutput (retiredRef :: seen) rest
    return updates ++ later

def setRollbackData (rollbackIndex : Nat) (data : Bytes) (state : MachOArchiveActivationState) :
    MachOArchiveActivationState :=
  { state with rollbackPatches := state.rollbackPatches.modify rollbackIndex ({ · with data }) }

def setFileRollbackData (stateIndex rollbackIndex : Nat) (data : Bytes) (input : FileState) :
    FileState :=
  { input with patch := input.patch.map fun patch =>
      { patch with machoArchiveMembers :=
          patch.machoArchiveMembers.modify stateIndex (setRollbackData rollbackIndex data) } }

def applyUpdate (inputFiles : List FileState) (update : RollbackUpdate) : List FileState :=
  inputFiles.modify update.stateRef.inputIndex
    (setFileRollbackData update.stateRef.stateIndex update.rollbackIndex update.data)

/-- The number of patches that were refreshed, and the input files. -/
def refreshDormantMachoArchiveRollbackPatches (inputFiles : List FileState)
    (retiredStates : List RetiredMachOArchiveStateRef) (currentOutput : Bytes) :
    Result Nat × List FileState :=
  match dormantUpdates readSections inputFiles currentOutput [] retiredStates with
  | .error message => (.error message, inputFiles)
  | .ok updates => (.ok updates.length, updates.foldl applyUpdate inputFiles)

/-! ## 5. Active states -/

/-- The bytes that are in the output now. -/
def currentForwardData (currentOutput : Bytes) (patch : StoredOutputPatch) : Result Bytes := do
  let (start, stop) ← patchRange patch "active Mach-O archive forward patch range overflowed"
  context (slice currentOutput start stop) "active Mach-O archive forward patch is outside output"

/-- A forward patch gets them, unless it is unwind information. -/
def refreshedForward (unwind : List (Nat × Nat)) (patch : StoredOutputPatch) (data : Bytes) :
    Result StoredOutputPatch := do
  let overlaps ← storedOutputPatchOverlapsRanges patch unwind
  if overlaps then do
    failIf (patch.data ≠ data) "active Mach-O archive unwind transaction bytes changed"
    return patch
  else return { patch with data }

variable (scratchApply : Bytes → List StoredOutputPatch → MachOArchiveUnwindVersionState →
  MachOArchiveUnwindVersionState → Result Bytes)

/-- `updated` of `refresh_active_macho_archive_forward_patches`.  Going back over the unwind
versions is `scratchApply`; only whether that succeeds counts. -/
def refreshedActive (state : MachOArchiveActivationState) (currentOutput : Bytes) :
    Result MachOArchiveActivationState := do
  failIf (state.active = false) "cannot refresh dormant Mach-O archive transaction"
  failIf (machoArchiveTransactionPatchesMatch state = false)
    "active Mach-O archive transaction is incomplete"
  let refreshed ← state.forwardPatches.mapM (currentForwardData currentOutput)
  let unwind ← unwindRanges readSections state currentOutput
  let forwardPatches ← (state.forwardPatches.zip refreshed).mapM fun (patch, data) =>
    refreshedForward unwind patch data
  let updated := { state with forwardPatches }
  failIf (updated.unwindTransaction.any fun transaction =>
      (scratchApply currentOutput updated.rollbackPatches transaction.forward
        transaction.rollback).toOption.isNone)
    "active Mach-O archive unwind transaction proof changed"
  return updated

def refreshActiveMachoArchiveForwardPatches (state : MachOArchiveActivationState)
    (currentOutput : Bytes) : Result Unit × MachOArchiveActivationState :=
  match refreshedActive readSections scratchApply state currentOutput with
  | .error message => (.error message, state)
  | .ok updated => (.ok (), updated)

end

end Srs.Incremental
