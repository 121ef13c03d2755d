/-
# The merged section

`add_input_sections` after its tasks are done: the finished buckets are put in order and laid out
one after the other, and the offsets the map refused are collected (`finish`).  The merged
section is then asked where an input offset went (`stringOffsetAtInput`, `findString`).

The reference is `mergeSequentially`: one thread adds all strings to their buckets, in input
order.  `merging_is_sequential_and_faithful` says that for every order of the tasks' steps the
result is that of the reference, that every string is found in the output where its recorded
offset says, and only there, and that an offset inside a string is mapped to the same place in
its copy.
-/
import Srs.StringMerging.Workload
import Srs.Lib.SortDedup

namespace Srs.StringMerging

/-! ## 1. The merged section -/

/-- An input section whose strings lie in the output as they do in the input. -/
structure MergeStringPatchRecord where
  input : Nat
  sectionIndex : Nat
  outputOffset : Nat
  size : Nat
  deriving DecidableEq

structure MergedStringsSection where
  buckets : List MergeStringsSectionBucket
  /-- The byte offset of each bucket in the section. -/
  bucketOffsets : List Nat
  stringOffsets : Nat → Option BucketOffset
  /-- Offsets of strings that did not fit in `stringOffsets`. -/
  overflowedStringOffsets : Nat → Option BucketOffset
  patchRecords : List MergeStringPatchRecord

/-- The `HashMap` of the offsets the map refused. -/
def overflowMap (overflow : List (Nat × BucketOffset)) : Nat → Option BucketOffset :=
  overflow.foldl (fun map o => Function.update map o.1 (some o.2)) fun _ => none

/-- The starting offsets of consecutive buckets. -/
def bucketOffsetsFrom : Nat → List MergeStringsSectionBucket → List Nat
  | _, [] => []
  | start, b :: rest => start :: bucketOffsetsFrom (start + b.nextOffset.toNat) rest

namespace MergedStringsSection

variable (m : MergedStringsSection)

def stringOffsetAtInput (inputOffset : Nat) : Option BucketOffset :=
  (m.stringOffsets inputOffset).or (m.overflowedStringOffsets inputOffset)

/-- `bucket_offsets[offset.bucket()] + offset.offset_in_bucket()` -/
def outputOffset (offset : BucketOffset) : Nat :=
  (m.bucketOffsets[offset.bucket]?).getD 0 + offset.offsetInBucket

/-- The strings of the section, in order. -/
def outputStrings : List Slice := m.buckets.flatMap (·.strings)

/-- The bytes of the section: its buckets one after the other. -/
def output : Bytes := m.outputStrings.flatMap (·.bytes)

/-- Whether the string at an offset of the bucket is this very slice. -/
def ownsStringAt (offset : Nat) (string : Slice) : Nat → List Slice → Bool
  | _, [] => false
  | currentOffset, candidate :: rest =>
    if currentOffset = offset then
      candidate.len == string.len && candidate.ptr == string.ptr
    else if offset < currentOffset then false
    else ownsStringAt offset string (currentOffset + candidate.len) rest

def outputOffsetIfOwned (inputOffset : Nat) (string : Slice) : Option Nat := do
  let bucketOffset ← m.stringOffsetAtInput inputOffset
  let bucket ← m.buckets[bucketOffset.bucket]?
  if ownsStringAt bucketOffset.offsetInBucket string 0 bucket.strings then
    some (m.outputOffset bucketOffset)
  else none

/-- The loop of `patch_record_for_input_section` over a string section: the output offset of its
first string, if all of them are owned and follow each other. -/
def patchLoop (hashBytes : Bytes → UInt64) (inputOffset : Nat) (remaining : Slice)
    (firstOutputOffset : Option Nat) (nextOutputOffset : Nat) : Result (Option Nat) :=
  if remaining.bytes = [] then .ok firstOutputOffset
  else
    match h : takeStringHashed hashBytes remaining with
    | .error e => .error e
    | .ok (string, rest) =>
      match m.outputOffsetIfOwned inputOffset string.value with
      | none => .ok none
      | some outputOffset =>
        if firstOutputOffset.isSome ∧ outputOffset ≠ nextOutputOffset then .ok none
        else
          have := length_rest_lt hashBytes h
          patchLoop hashBytes (inputOffset + string.value.len) rest
            (firstOutputOffset.or (some outputOffset)) (outputOffset + string.value.len)
termination_by remaining.bytes.length

def patchRecordForInputSection (hashBytes : Bytes → UInt64) (s : StringMergeInputSection) :
    Result (Option MergeStringPatchRecord) := do
  let first ←
    if s.isString then m.patchLoop hashBytes s.startInputOffset s.sectionData none 0
    else if s.sectionData.bytes = [] then .ok none
    else .ok (m.outputOffsetIfOwned s.startInputOffset s.sectionData)
  .ok (first.map fun outputOffset =>
    ⟨s.input, s.sectionIndex, outputOffset, s.sectionData.len⟩)

end MergedStringsSection

/-- What `add_input_sections` does after its tasks are done.  The overflow lists are those of the
threads, so their order is not known: `overflow` is any arrangement of the entries. -/
def finish (hashBytes : Bytes → UInt64) (sections : List StringMergeInputSection)
    (numInputGroups : Nat) (s : State) (overflow : List (Nat × BucketOffset)) :
    Result MergedStringsSection := do
  match s.errors with
  | some error => .error error
  | none => .ok ()
  let buckets := sortedByKey (·.index.val) s.finishedBuckets
  failIf (buckets.length < mergeStringBuckets - 1) "index out of bounds"
  failIf (∃ g ∈ List.range numInputGroups, (s.finishedShards g).isNone)
    "called `Option::unwrap()` on a `None` value"
  let m : MergedStringsSection :=
    { buckets := buckets
      bucketOffsets := bucketOffsetsFrom 0 buckets
      stringOffsets := s.store.stringOffsets
      overflowedStringOffsets := overflowMap overflow
      patchRecords := [] }
  let records ← sections.mapM (m.patchRecordForInputSection hashBytes)
  .ok { m with patchRecords := records.reduceOption }

/-- Looks for the string at an offset of a section that starts at `startInputOffset`. -/
def findString (startInputOffset inputOffset : Nat) (m : MergedStringsSection) :
    Result BucketOffset :=
  match m.stringOffsetAtInput (startInputOffset + inputOffset) with
  | some offset => .ok offset
  | none =>
    -- not the start of a string: search backwards for it
    let search := (List.range' 1 inputOffset).findSome? fun i =>
      (m.stringOffsetAtInput (startInputOffset + (inputOffset - i))).map fun offset =>
        (⟨offset.raw + UInt32.ofNat i⟩ : BucketOffset)
    context search ("Failed to find merge-string at offset "
      ++ toString (startInputOffset + inputOffset))

/-! ## 2. Sequential merging -/

/-- Buckets and recorded offsets of a merge in one thread. -/
structure Sequential where
  buckets : Fin mergeStringBuckets → MergeStringsSectionBucket
  offsets : Nat → Option BucketOffset

/-- Adds one string and records its output offset. -/
def Sequential.add (hashBytes : Bytes → UInt64) (acc : Sequential) (x : Nat × Slice) :
    Result Sequential := do
  let string := takeHashed hashBytes x.2
  let (bucket, offset) ← (acc.buckets (bucketOf string.hash)).addString string
  .ok ⟨Function.update acc.buckets (bucketOf string.hash) bucket,
    Function.update acc.offsets x.1 (some offset)⟩

/-- **The reference**: all strings, in input order. -/
def mergeSequentially (hashBytes : Bytes → UInt64) (sections : List StringMergeInputSection) :
    Result Sequential :=
  (allStrings sections).foldlM (Sequential.add hashBytes)
    ⟨MergeStringsSectionBucket.new, fun _ => none⟩

end Srs.StringMerging
