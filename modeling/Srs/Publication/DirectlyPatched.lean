/-
# Directly patched outputs

`DirectlyPatchedOutput` patches an output in one of three ways: in place, in a generation that is
copied from a retained snapshot, or in the standby generation.  `install` then publishes the
generation.  From a retained snapshot the output that is replaced must be the expected one, and
the two are exchanged.  With a standby, the output that is displaced becomes the next standby,
and the ranges in which it differs from the published output are written to its state file.

The hooks that `install_with_exchange_hooks` runs before and after the exchange do nothing in the
program, and are left out: what other processes do there is interference.  A function that
returns an `Option` for want of an error (`new`, `read_directly_patched_output_standby_ranges`)
fails here without a message.
-/
import Srs.Publication.Files
import Srs.Lib.Intervals

namespace Srs.Publication

open Text Srs.Action
open Incremental (FileIdentity)

abbrev Step (σ α : Type) : Type := Action Operation Reply Failure σ α

variable {σ α : Type}

/-- An operation, followed by `?`. -/
def perform (op : Operation) : Step σ (Value op) := fun s => .call op fun r => .done (r, s)

def tryExists (p : Path) : Step σ Bool := perform (.tryExists p)

def metadata (p : Path) : Step σ Metadata := perform (.metadata p)

def read (p : Path) : Step σ (List UInt8) := perform (.read p)

def copyToUnique (p : Path) : Step σ Path := perform (.copyToUnique p)

/-- `with_context`. -/
def withContext (x : Step σ α) (message : String) (paths : List Path) : Step σ α := do
  match ← x.attempt with
  | .ok a => return a
  | .error e => fail { e with message, paths }

/-- `return Err(crate::error!(..))`. -/
def refuse (message : String) (paths : List Path) : Step σ α := fail ⟨.other, message, paths⟩

/-- `?` on an `Option`. -/
def orNone : Option α → Step σ α
  | some a => pure a
  | none => fail ⟨.other, "", []⟩

/-- `let _ = ..`. -/
def ignore (x : Step σ α) : Step σ Unit := do
  let _ ← x.attempt
  return ()

/-- `try_exists().unwrap_or(..)`. -/
def tryExistsOr (fallback : Bool) (p : Path) : Step σ Bool := do
  match ← (tryExists p).attempt with
  | .ok found => return found
  | .error _ => return fallback

/-- `FileIdentity::from_path`. -/
def fromPath (p : Path) : Step σ (Option FileIdentity) := do
  let found ← withContext (metadata p) "Failed to read metadata for ``" [p]
  return found.identity

/-- `FileIdentity::from_path(..).ok().flatten()`. -/
def identityIfAny (p : Path) : Step σ (Option FileIdentity) := do
  match ← (fromPath p).attempt with
  | .ok identity => return identity
  | .error _ => return none

/-- An exit on an error returns no value, so nothing is to be shown of it. -/
theorem of_error {e : Failure} {P : α → Prop} (a : α)
    (h : (Except.error e : Except Failure α) = .ok a) : P a := nomatch h

/-! ## 1. Ranges -/

/-- The loop of `merged_output_ranges`: the last range is extended or another one is begun. -/
def mergeRange (merged : List Interval) (range : Interval) : List Interval :=
  match merged.getLast? with
  | some previous =>
    if range.start ≤ previous.stop then
      merged.dropLast ++ [{ previous with stop := max previous.stop range.stop }]
    else merged ++ [range]
  | none => [range]

/-- `merged_output_ranges`. -/
def mergedOutputRanges (ranges : List Interval) : List Interval :=
  ((ranges.filter fun range => range.start < range.stop).mergeSort
    fun a b => a.start ≤ b.start).foldl mergeRange []

/-- The 64 KiB buffer of `copy_output_ranges`. -/
def bufferLen : Nat := 64 * 1024

/-- The inner loop of `copy_output_ranges`, from an offset on. -/
def copyRange (source target : Path) (offset remaining : Nat) : Step σ Unit :=
  if remaining = 0 then pure ()
  else do
    let len := min remaining bufferLen
    let bytes ← perform (.readAt source offset len)
    perform (.writeAt target offset bytes)
    copyRange source target (offset + len) (remaining - len)
termination_by remaining
decreasing_by
  have : 0 < bufferLen := by decide
  omega

/-- The loop of `copy_output_ranges` over the ranges. -/
def copyRanges (source target : Path) : List Interval → Step σ Unit
  | [] => pure ()
  | range :: ranges => do
    copyRange source target range.start (range.stop - range.start)
    copyRanges source target ranges

/-- `copy_output_ranges`: both files must be there to be opened. -/
def copyOutputRanges (source target : Path) (ranges : List Interval) : Step σ Unit := do
  withContext (discard (metadata source))
    "Failed to open directly patched output source ``" [source]
  withContext (discard (metadata target))
    "Failed to open directly patched output standby ``" [target]
  copyRanges source target (mergedOutputRanges ranges)

/-- The loop of `write_output_ranges`. -/
def writeRanges (output : List UInt8) (path : Path) : List Interval → Step σ Unit
  | [] => pure ()
  | range :: ranges => do
    if range.stop ≤ output.length ∧ range.start ≤ range.stop then
      withContext
        (perform (.writeAt path range.start
          ((output.drop range.start).take (range.stop - range.start))))
        "Failed to write incrementally patched output ``" [path]
      writeRanges output path ranges
    else refuse "Incrementally patched output range is out of bounds for ``" [path]

/-- `write_output_ranges`. -/
def writeOutputRanges (output : List UInt8) (ranges : List Interval) (path : Path) : Step σ Unit :=
  writeRanges output path (mergedOutputRanges ranges)

/-! ## 2. The state file of the standby -/

def DIRECT_PATCH_STANDBY_STATE_VERSION : Text := "sld-direct-patch-standby-v1".toList

def DIRECT_PATCH_STANDBY_STATE_MAX_LEN : Nat := 1024 * 1024

def DIRECT_PATCH_STANDBY_MAX_RANGES : Nat := 4096

/-- The bytes of a text in UTF-8. -/
def encodeText (t : Text) : List UInt8 := (String.ofList t).toUTF8.data.toList

/-- What `read_to_string` makes of bytes. -/
def decodeText (bytes : List UInt8) : Option Text :=
  (String.fromUTF8? ⟨bytes.toArray⟩).map String.toList

theorem decodeText_encodeText (t : Text) : decodeText (encodeText t) = some t := by
  have hvalid : (String.ofList t).toUTF8.IsValidUTF8 := (String.ofList t).isValidUTF8
  have hbytes : (⟨(encodeText t).toArray⟩ : ByteArray) = (String.ofList t).toUTF8 := by
    simp [encodeText]
  rw [decodeText, hbytes, String.fromUTF8?, dif_pos hvalid]
  exact congrArg some String.toList_ofList

def renderRange (range : Interval) : Text :=
  Decimal.render range.start ++ ':' :: Decimal.render range.stop

/-- What `write_directly_patched_output_standby_state` writes. -/
def standbyStateText (output standby : FileIdentity) (ranges : List Interval) : Text :=
  unlines (DIRECT_PATCH_STANDBY_STATE_VERSION :: output.render :: standby.render ::
    Decimal.render ranges.length :: ranges.map renderRange)

/-- A range line: it must lie within the output. -/
def parseRange (len : Nat) (line : Text) : Option Interval := do
  let (start, stop) ← splitOnce ':' line
  let start : Nat ← Decimal.parse start
  let stop : Nat ← Decimal.parse stop
  if start > stop ∨ stop > len then none else some ⟨start, stop⟩

/-- The next line holds an identity. -/
def parseIdentityLine (line : Text) : Option FileIdentity :=
  (FileIdentity.parse line).toOption.join

/-- The lines up to the identities: those, and the lines that follow. -/
def parseStandbyHeader (contents : Text) : Option (FileIdentity × FileIdentity × List Text) :=
  match lines contents with
  | version :: expectedOutput :: expectedStandby :: rest =>
    if version = DIRECT_PATCH_STANDBY_STATE_VERSION then do
      let expectedOutput ← parseIdentityLine expectedOutput
      let expectedStandby ← parseIdentityLine expectedStandby
      return (expectedOutput, expectedStandby, rest)
    else none
  | _ => none

/-- The lines of the ranges: their number, and one line each. -/
def parseStandbyRanges (len : Nat) : List Text → Option (List Interval)
  | [] => none
  | rangeCount :: rest => do
    let rangeCount : Nat ← Decimal.parse rangeCount
    if rangeCount > DIRECT_PATCH_STANDBY_MAX_RANGES then none
    else
      let ranges ← (rest.take rangeCount).mapM (parseRange len)
      if ranges.length ≠ rangeCount ∨ rest.drop rangeCount ≠ [] then none
      else return mergedOutputRanges ranges

/-- `read_directly_patched_output_standby_ranges`. -/
def readDirectlyPatchedOutputStandbyRanges (output standby statePath : Path) :
    Step σ (List Interval) := do
  let found ← metadata statePath
  if found.len > DIRECT_PATCH_STANDBY_STATE_MAX_LEN then orNone none
  else
    let contents ← orNone (decodeText (← read statePath))
    let (expectedOutput, expectedStandby, rest) ← orNone (parseStandbyHeader contents)
    let outputIdentity ← orNone (← identityIfAny output)
    let standbyIdentity ← orNone (← identityIfAny standby)
    if expectedOutput ≠ outputIdentity ∨ expectedStandby ≠ standbyIdentity then orNone none
    else orNone (parseStandbyRanges outputIdentity.len.toNat rest)

/-- `write_directly_patched_output_standby_state`. -/
def writeDirectlyPatchedOutputStandbyState (statePath output standby : Path)
    (ranges : List Interval) : Step σ Unit := do
  let ranges := mergedOutputRanges ranges
  if ranges.length > DIRECT_PATCH_STANDBY_MAX_RANGES then
    ignore (perform (.remove statePath))
    ignore (perform (.remove standby))
  else
    let some outputIdentity ← fromPath output
      | refuse "Missing directly patched output generation identity" []
    let some standbyIdentity ← fromPath standby
      | refuse "Missing directly patched output standby identity" []
    withContext (perform (.write .standbyStateTmpFile
        (encodeText (standbyStateText outputIdentity standbyIdentity ranges))))
      "Failed to write directly patched output standby state ``" [.standbyStateTmpFile]
    withContext (perform (.rename .standbyStateTmpFile statePath))
      "Failed to install directly patched output standby state ``" [statePath]

/-- One turn of `invalidate_directly_patched_output_standby`. -/
def removeIfPresent (p : Path) : Step σ Unit := do
  match ← (perform (.remove p)).attempt with
  | .ok _ => return ()
  | .error e =>
    if e.kind = .notFound then return ()
    else fail { e with
      message := "Failed to remove directly patched output standby ``", paths := [p] }

/-- `invalidate_directly_patched_output_standby`. -/
def invalidateDirectlyPatchedOutputStandby : Step σ Unit := do
  removeIfPresent .standbyStateFile
  removeIfPresent .standbyFile

/-! ## 3. A directly patched output -/

structure DirectlyPatchedOutput where
  path : Path
  removePathOnDrop : Bool
  publishedPath : Option Path
  publishedIdentity : Option FileIdentity
  standbyStatePath : Option Path
  installIfMissing : Bool
  deriving DecidableEq

namespace DirectlyPatchedOutput

/-- `DirectlyPatchedOutput::new` with a retained snapshot. -/
def ofSnapshot (output snapshot : Path) (liveOutputIdentity : Option FileIdentity) :
    Step σ DirectlyPatchedOutput := do
  let outputExists ← tryExists output
  let publishedIdentity ← if outputExists then identityIfAny output else pure none
  let selected : Bool :=
    match liveOutputIdentity, publishedIdentity with
    | some expected, some actual => decide (expected = actual)
    | _, none => !outputExists
    | none, some _ => false
  if ¬ selected then orNone none
  let generation ← copyToUnique snapshot
  return { path := generation, removePathOnDrop := true, publishedPath := some output,
           publishedIdentity, standbyStatePath := none, installIfMissing := !outputExists }

/-- `DirectlyPatchedOutput::new` in place. -/
def inPlace (output : Path) : DirectlyPatchedOutput :=
  { path := output, removePathOnDrop := false, publishedPath := none, publishedIdentity := none,
    standbyStatePath := none, installIfMissing := false }

/-- Whether the standby was there and could be caught up with the output. -/
def reuseStandby (output : Path) : Step σ Bool := do
  match ← (readDirectlyPatchedOutputStandbyRanges output .standbyFile .standbyStateFile).attempt with
  | .ok ranges =>
    match ← (copyOutputRanges output .standbyFile ranges).attempt with
    | .ok _ => return true
    | .error _ => return false
  | .error _ => return false

/-- A standby that could not be reused is cloned from the output. -/
def cloneStandby (output : Path) : Step σ Unit := do
  ignore (perform (.remove .standbyFile))
  perform (.cloneBytes output .standbyFile)

/-- The output must still be the one that was looked at first. -/
def checkOutput (output : Path) (publishedIdentity : FileIdentity) :
    Step σ DirectlyPatchedOutput := do
  let identity ← identityIfAny output
  if identity.any (matchesSameDataIgnoringChangeTime · publishedIdentity) then
    return { path := .standbyFile, removePathOnDrop := true, publishedPath := some output,
             publishedIdentity := some publishedIdentity,
             standbyStatePath := some .standbyStateFile, installIfMissing := false }
  else
    ignore (perform (.remove .standbyFile))
    orNone none

/-- `DirectlyPatchedOutput::new` with a standby. -/
def ofStandby (output : Path) : Step σ DirectlyPatchedOutput := do
  let publishedIdentity ← orNone (← identityIfAny output)
  if ← reuseStandby output then checkOutput output publishedIdentity
  else
    cloneStandby output
    checkOutput output publishedIdentity

/-- `DirectlyPatchedOutput::new`. -/
def new (output : Path) (shouldReplace : Bool) (retainedOutputSnapshot : Option Path)
    (liveOutputIdentity : Option FileIdentity) : Step σ DirectlyPatchedOutput := do
  match retainedOutputSnapshot with
  | some snapshot => ofSnapshot output snapshot liveOutputIdentity
  | none =>
    if ¬ (← tryExistsOr false output) then orNone none
    if ¬ shouldReplace then return inPlace output
    ofStandby output

/-- `is_generation`. -/
def isGeneration (self : DirectlyPatchedOutput) : Bool := self.publishedPath.isSome

/-- `drop`. -/
def drop (self : DirectlyPatchedOutput) : Step σ Unit :=
  if self.publishedPath.isSome ∧ self.removePathOnDrop then ignore (perform (.remove self.path))
  else pure ()

end DirectlyPatchedOutput

/-! ## 4. Publication -/

inductive Platform
  | apple
  | linux
  | other
  deriving DecidableEq

/-- `exchange_directly_patched_output_generation`. -/
def exchangeDirectlyPatchedOutputGeneration (platform : Platform) (generation output : Path) :
    Step σ Unit :=
  if platform = .other then
    refuse "Atomic output generation exchange is unsupported on this platform" []
  else
    withContext (perform (.exchange generation output))
      "Failed to exchange directly patched output generation" []

/-- `install_directly_patched_output_generation`. -/
def installDirectlyPatchedOutputGeneration (platform : Platform) (generation output : Path) :
    Step σ Unit :=
  match platform with
  | .apple => do
    match ← (exchangeDirectlyPatchedOutputGeneration platform generation output).attempt with
    | .ok _ => return ()
    | .error _ => do
      withContext (perform (.rename generation output))
        "Failed to install directly patched output generation" []
  | _ => do
    withContext (perform (.rename generation output))
      "Failed to install directly patched output generation `` as ``" [generation, output]

/-- The published path is free: the generation is linked there and its own path removed. -/
def linkGeneration (generation output : Path) (message : String) (removalHasContext : Bool) :
    Step DirectlyPatchedOutput (Option FileIdentity) := do
  withContext (perform (.hardLink generation output)) message [output]
  let installedIdentity ← fromPath output
  if removalHasContext then
    withContext (perform (.remove generation))
      "Failed to remove directly patched output generation ``" [generation]
  else perform (.remove generation)
  update fun self => { self with publishedPath := none }
  return installedIdentity

def missingOutputMessage : String :=
  "Failed to install directly patched missing output `` without replacing an existing file"

def disappearedOutputMessage : String :=
  "Failed to install directly patched output `` after the selected output disappeared"

/-- After the exchange: what was displaced must be what was expected, and what is published the
generation. -/
def verifyExchange (generation output : Path) (expected : FileIdentity)
    (generationIdentity : Option FileIdentity) :
    Step DirectlyPatchedOutput (Option FileIdentity) := do
  let displaced ← fromPath generation
  let predecessorMatches := displaced.any (matchesSameDataIgnoringChangeTime · expected)
  let installed ← fromPath output
  let publicMatchesGeneration := installed.any fun actual =>
    generationIdentity.any (matchesSameDataIgnoringChangeTime actual ·)
  if ¬ predecessorMatches ∨ ¬ publicMatchesGeneration then
    refuse "Refusing to replace raced incremental output ``" [output]
  perform (.remove generation)
  update fun self => { self with publishedPath := none }
  return generationIdentity

/-- The second half of the branch below, once the output was seen to be the expected one. -/
def exchangeAndVerify (platform : Platform) (generation output : Path) (expected : FileIdentity)
    (generationIdentity : Option FileIdentity) :
    Step DirectlyPatchedOutput (Option FileIdentity) := do
  match ← (exchangeDirectlyPatchedOutputGeneration platform generation output).attempt with
  | .error e =>
    if ← tryExistsOr true output then fail e
    else linkGeneration generation output disappearedOutputMessage false
  | .ok _ =>
    update fun self => { self with removePathOnDrop := false }
    verifyExchange generation output expected generationIdentity

/-- The branch of `install_with_exchange_hooks` that replaces an expected output. -/
def exchangeExpected (platform : Platform) (generation output : Path) (expected : FileIdentity) :
    Step DirectlyPatchedOutput (Option FileIdentity) := do
  if ← tryExistsOr true output then
    let actual ← fromPath output
    if actual ≠ some expected then
      refuse "Refusing to replace changed incremental output ``" [output]
    let generationIdentity ← fromPath generation
    let actual ← fromPath output
    if actual ≠ some expected then
      refuse "Refusing to replace changed incremental output ``" [output]
    exchangeAndVerify platform generation output expected generationIdentity
  else linkGeneration generation output disappearedOutputMessage true

/-- Whether the displaced output became the standby, with its state file written. -/
def installStandbyState (output : Path) (ranges : List Interval) :
    Step DirectlyPatchedOutput Bool := do
  let self ← self
  let displaced ← identityIfAny self.path
  if self.publishedIdentity.any fun expected =>
      displaced.any (matchesSameDataIgnoringChangeTime expected ·) then
    match self.standbyStatePath with
    | none => return false
    | some standbyStatePath =>
      match ← (writeDirectlyPatchedOutputStandbyState standbyStatePath output self.path
          ranges).attempt with
      | .ok _ => return true
      | .error _ => return false
  else return false

/-- There is no standby for the next link. -/
def discardStandby : Step DirectlyPatchedOutput Unit := do
  let self ← self
  ignore (perform (.remove self.path))
  match self.standbyStatePath with
  | some standbyStatePath => ignore (perform (.remove standbyStatePath))
  | none => pure ()

/-- The last branch of `install_with_exchange_hooks`: what is displaced becomes the standby. -/
def installWithStandby (platform : Platform) (output : Path) (ranges : List Interval) :
    Step DirectlyPatchedOutput (Option FileIdentity) := do
  let self ← self
  let generationIdentity ← fromPath self.path
  installDirectlyPatchedOutputGeneration platform self.path output
  let standbyStateInstalled ← installStandbyState output ranges
  if ¬ standbyStateInstalled then discardStandby
  update fun self => { self with publishedPath := none }
  return generationIdentity

/-- `install_with_exchange_hooks`. -/
def installWithExchangeHooks (platform : Platform) (ranges : List Interval) :
    Step DirectlyPatchedOutput (Option FileIdentity) := do
  let self ← self
  match self.publishedPath with
  | none => return none
  | some output =>
    if self.installIfMissing then
      linkGeneration self.path output missingOutputMessage true
    else
      match self.standbyStatePath, self.publishedIdentity with
      | none, some expected => exchangeExpected platform self.path output expected
      | _, _ => installWithStandby platform output ranges

/-- `install`, and the `DirectlyPatchedOutput` is dropped whatever the outcome is. -/
def installAndDrop (platform : Platform) (ranges : List Interval) (self : DirectlyPatchedOutput) :
    Procedure Operation Reply (Except Failure (Option FileIdentity)) := do
  let (outcome, self) ← installWithExchangeHooks platform ranges self
  let _ ← (DirectlyPatchedOutput.drop self : Step Unit Unit) ()
  return outcome

/-! ## 5. One link -/

/-- What a directly patched link is given, and how it changes the bytes of the output. -/
structure Link where
  platform : Platform
  shouldReplace : Bool
  retainedOutputSnapshot : Option Path
  liveOutputIdentity : Option FileIdentity
  patch : List UInt8 → List UInt8
  /-- The output is patched in a mapping of the file, which cannot grow. -/
  length_patch : ∀ bytes, (patch bytes).length = bytes.length
  flushRanges : List Interval

/-- The patches are made to private pages and then written, or flushed in place. -/
def patchOutput (link : Link) (publication : DirectlyPatchedOutput) : Step σ Unit := do
  let bytes ← read publication.path
  if publication.isGeneration then
    writeOutputRanges (link.patch bytes) link.flushRanges publication.path
  else perform (.writeAt publication.path 0 (link.patch bytes))

/-- A directly patched link, as far as it works on the output. -/
def directlyPatchedLink (link : Link) :
    Procedure Operation Reply (Except Failure (Option FileIdentity)) := do
  let (publication, _) ← (DirectlyPatchedOutput.new .outputFile link.shouldReplace
    link.retainedOutputSnapshot link.liveOutputIdentity : Step Unit DirectlyPatchedOutput) ()
  match publication with
  | .error e => return .error e
  | .ok publication =>
    let (patched, _) ← (patchOutput link publication : Step Unit Unit) ()
    match patched with
    | .error e =>
      let _ ← (publication.drop : Step Unit Unit) ()
      return .error e
    | .ok _ => installAndDrop link.platform link.flushRanges publication

end Srs.Publication
