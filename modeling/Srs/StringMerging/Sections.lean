/-
# Merge sections and how they are split

`string_merging.rs` merges the strings of all input sections that go into one output section.
This module is its first phase: the input sections, the groups they are cut into
(`splitSections`) and the splitting of one group into strings, each put into the bucket its
hash selects (`processInputSection`, `splitGroup`).

A slice is modelled with its address, because `owns_string_at` compares addresses.  Lengths and
linear input offsets are natural numbers: the offsets are sums of lengths of slices that lie in
memory, so the `u64` sums do not wrap.  The casts to `isize` in `split_sections` are kept
(`asIsize`); the group size is an argument of the linker and can be any `usize`.

Two things are not in the repository.  `hashBytes` is the hash of the `foldhash` crate; and a
shard of the `sharded_offset_map` crate decides through `room` whether it accepts an offset
(the real one keeps at most twelve offsets of a block of `mapBlockSize`).  Both are parameters.
-/
import Srs.Lib.Text
import Srs.Lib.Bytes

namespace Srs.StringMerging

/-! ## 1. Constants -/

def mergeStringBucketBits : Nat := 4

def mergeStringBuckets : Nat := 1 <<< mergeStringBucketBits

/-- Number of input offsets that one block of the offset map stands for. -/
def mapBlockSize : Nat := 256

/-- `next_multiple_of`. -/
def nextMultipleOf (n block : Nat) : Nat :=
  if n % block = 0 then n else n + (block - n % block)

/-- `n as isize` on a 64-bit target. -/
def asIsize (n : Nat) : Int :=
  if n % 2 ^ 64 < 2 ^ 63 then ((n % 2 ^ 64 : Nat) : Int) else ((n % 2 ^ 64 : Nat) : Int) - 2 ^ 64

/-! ## 2. Slices and strings -/

/-- A byte slice: its address and its contents. -/
structure Slice where
  ptr : Nat
  bytes : Bytes
  deriving DecidableEq

namespace Slice

def len (s : Slice) : Nat := s.bytes.length

/-- `&s[n..]` -/
def drop (s : Slice) (n : Nat) : Slice := ⟨s.ptr + n, s.bytes.drop n⟩

/-- `s.split_at(n)` -/
def splitAt (s : Slice) (n : Nat) : Slice × Slice := (⟨s.ptr, s.bytes.take n⟩, s.drop n)

end Slice

/-- A merge string with its hash.  Two of them are equal when their bytes are. -/
structure PreHashed where
  value : Slice
  hash : UInt64
  deriving DecidableEq

/-- The position of the first `needle`. -/
def memchr (needle : UInt8) (haystack : Bytes) : Option Nat := haystack.idxOf? needle

section Hash

variable (hashBytes : Bytes → UInt64)

/-- Takes from `source` up to the next null terminator: the string and what is left. -/
def takeStringHashed (source : Slice) : Result (PreHashed × Slice) := do
  let i ← context (memchr 0 source.bytes) "String in merge-string section is not null-terminated"
  let (bytes, rest) := source.splitAt (i + 1)
  .ok (⟨bytes, hashBytes bytes.bytes⟩, rest)

/-- Takes the whole `source`. -/
def takeHashed (source : Slice) : PreHashed := ⟨source, hashBytes source.bytes⟩

end Hash

/-! ## 3. Input sections -/

/-- An input section that is merged.  A slice cannot be larger than `isize::MAX`, and an
allocation never ends so close to it that rounding up to a block would pass it. -/
structure StringMergeInputSection where
  input : Nat
  sectionIndex : Nat
  sectionData : Slice
  /-- The sum of the padded sizes of the sections before this one. -/
  startInputOffset : Nat
  isString : Bool
  fits : sectionData.len + mapBlockSize ≤ 2 ^ 63
  deriving DecidableEq

namespace StringMergeInputSection

/-- The length of the section's data rounded up to the next multiple of the block size. -/
def paddedLen (s : StringMergeInputSection) : Nat := nextMultipleOf s.sectionData.len mapBlockSize

end StringMergeInputSection

/-- The start offsets are the running sums of the padded lengths, from `start` on. -/
def LaidOut : Nat → List StringMergeInputSection → Prop
  | _, [] => True
  | start, s :: rest => s.startInputOffset = start ∧ LaidOut (start + s.paddedLen) rest

instance LaidOut.decidable : ∀ start sections, Decidable (LaidOut start sections)
  | _, [] => .isTrue trivial
  | start, s :: rest =>
    have := LaidOut.decidable (start + s.paddedLen) rest
    inferInstanceAs (Decidable (s.startInputOffset = start ∧ _))

/-! ## 4. Splitting a section into strings -/

/-- A shard of the offset map: the range of offsets it is for and those it accepted so far. -/
structure Shard where
  base : Nat
  len : Nat
  keys : List Nat
  deriving DecidableEq

/-- `Shard::insert`: refuses the offset when there is no room for it. -/
def Shard.insert (room : Shard → Nat → Bool) (shard : Shard) (key : Nat) : Option Shard :=
  if room shard key then some { shard with keys := shard.keys ++ [key] } else none

/-- A place where the output offset of a string is stored once it is known. -/
inductive OffsetOut where
  | inShard (key : Nat)
  | overflow (key : Nat)
  deriving DecidableEq

structure StringToMerge where
  string : PreHashed
  offsetOut : OffsetOut
  deriving DecidableEq

/-- The vectors of strings, one for each bucket. -/
abbrev StringVecs := Fin mergeStringBuckets → List StringToMerge

/-- `hash % MERGE_STRING_BUCKETS` -/
def bucketOf (hash : UInt64) : Fin mergeStringBuckets :=
  ⟨hash.toNat % mergeStringBuckets, Nat.mod_lt _ (by decide)⟩

/-- What `process_input_section` adds to. -/
structure Split where
  buckets : StringVecs
  shard : Shard

section Split

variable (hashBytes : Bytes → UInt64) (room : Shard → Nat → Bool)

/-- `insert_data`: claims the offset in the shard and puts the string into its bucket. -/
def insertData (out : Split) (data : PreHashed) (inputOffset : Nat) : Split :=
  let push (offsetOut : OffsetOut) :=
    Function.update out.buckets (bucketOf data.hash)
      (out.buckets (bucketOf data.hash) ++ [⟨data, offsetOut⟩])
  match out.shard.insert room inputOffset with
  | some shard => ⟨push (.inShard inputOffset), shard⟩
  | none => ⟨push (.overflow inputOffset), out.shard⟩

variable {source rest : Slice} {string : PreHashed}

theorem takeStringHashed_eq_ok :
    takeStringHashed hashBytes source = .ok (string, rest) ↔
      ∃ i, memchr 0 source.bytes = some i
        ∧ string = ⟨(source.splitAt (i + 1)).1, hashBytes (source.bytes.take (i + 1))⟩
        ∧ rest = source.drop (i + 1) := by
  unfold takeStringHashed
  cases memchr 0 source.bytes with
  | none => simp [context, bind, Except.bind]
  | some i =>
    simp only [context, bind, Except.bind, Slice.splitAt, Except.ok.injEq, Prod.mk.injEq,
      Option.some.injEq, exists_eq_left']
    exact and_congr eq_comm eq_comm

theorem length_rest_lt
    (h : takeStringHashed hashBytes source = .ok (string, rest)) :
    rest.bytes.length < source.bytes.length := by
  obtain ⟨i, hi, -, rfl⟩ := (takeStringHashed_eq_ok hashBytes).mp h
  have hne : source.bytes ≠ [] := by
    intro e
    rw [e] at hi
    simp [memchr] at hi
  have := List.length_pos_iff.mpr hne
  simp only [Slice.drop, List.length_drop]
  omega

/-- The `while` loop over a string section. -/
def splitStrings (rangeEnd inputOffset : Nat) (remaining : Slice) (out : Split) : Result Split :=
  if remaining.bytes ≠ [] ∧ inputOffset < rangeEnd then
    match h : takeStringHashed hashBytes remaining with
    | .error e => .error e
    | .ok (string, rest) =>
      have := length_rest_lt hashBytes h
      splitStrings rangeEnd (inputOffset + string.value.len) rest
        (insertData room out string inputOffset)
  else .ok out
termination_by remaining.bytes.length

/-- How far to move in a section when the range starts part way through it: nowhere when it
starts just after a null character, else past the end of the string it starts in. -/
def advanceTo (remaining : Bytes) (offsetInSection : Nat) : Nat :=
  if remaining[offsetInSection - 1]? = some 0 then offsetInSection
  else match memchr 0 (remaining.drop offsetInSection) with
    | some nullOffset => offsetInSection + nullOffset + 1
    | none => remaining.length

/-- Splits an input section into strings and puts them into the buckets their hashes select.
Only strings that start in `[rangeStart, rangeEnd)` are taken. -/
def processInputSection (section_ : StringMergeInputSection) (out : Split)
    (rangeStart rangeEnd : Nat) : Result Split := do
  let inputOffset := section_.startInputOffset
  let remaining := section_.sectionData
  let offsetInSection := rangeStart - inputOffset
  -- a range that starts part way through the section: the byte before it is looked at
  failIf (remaining.len < offsetInSection) "index out of bounds"
  let advance :=
    if inputOffset < rangeStart then advanceTo remaining.bytes offsetInSection else 0
  let inputOffset := inputOffset + advance
  let remaining := remaining.drop advance
  if section_.isString then splitStrings hashBytes room rangeEnd inputOffset remaining out
  else .ok (insertData room out (takeHashed hashBytes remaining) inputOffset)

/-! ## 5. Groups -/

/-- A group of input sections that are processed together.  Only strings that start in
`[rangeStart, rangeEnd)` belong to it. -/
structure SectionGroup where
  index : Nat
  sections : List StringMergeInputSection
  offsetsShard : Shard
  rangeStart : Nat
  rangeEnd : Nat
  deriving DecidableEq

/-- The first half of `process_input_section_group`: the strings of the group by bucket, and
the shard with the offsets it accepted. -/
def splitGroup (group : SectionGroup) : Result Split :=
  group.sections.foldlM
    (fun out section_ =>
      processInputSection hashBytes room section_ out group.rangeStart group.rangeEnd)
    ⟨fun _ => [], group.offsetsShard⟩

end Split

/-- Where a group ends: the variables of `split_sections` after its inner loop. -/
structure GroupEnd where
  sectionIndex : Nat
  offsetInSection : Nat
  remaining : Int
  endSection : Bool
  deriving DecidableEq

/-- The inner loop of `split_sections`, on the sections from `sectionIndex` on.  It never runs
past the last section. -/
def fillGroup : List StringMergeInputSection → Nat → Nat → Int → GroupEnd
  | [], sectionIndex, offsetInSection, remaining => ⟨sectionIndex, offsetInSection, remaining, false⟩
  | sec :: rest, sectionIndex, offsetInSection, remaining =>
    if 0 < remaining then
      let available := asIsize (sec.paddedLen - offsetInSection)
      if available > remaining ∧ sec.isString then
        -- still some of this section left for the next group
        ⟨sectionIndex, offsetInSection + remaining.toNat, 0, false⟩
      else if remaining - available ≤ 0 ∨ rest = [] then
        ⟨sectionIndex, offsetInSection + available.toNat, remaining - available, true⟩
      else fillGroup rest (sectionIndex + 1) 0 (remaining - available)
    else ⟨sectionIndex, offsetInSection, remaining, false⟩

/-- `sections[i].start_input_offset` -/
def startOf (sections : List StringMergeInputSection) (i : Nat) : Nat :=
  (sections[i]?.map (·.startInputOffset)).getD 0

/-- The group from `(sectionIndex, offsetInSection)` to `stop`; `taken` is what the shards taken
before it cover. -/
def groupAt (sections : List StringMergeInputSection) (size index taken sectionIndex
    offsetInSection : Nat) (stop : GroupEnd) : SectionGroup where
  index := index
  sections := (sections.drop sectionIndex).take (stop.sectionIndex - sectionIndex + 1)
  offsetsShard := ⟨taken, (asIsize size - stop.remaining).toNat, []⟩
  rangeStart := startOf sections sectionIndex + offsetInSection
  rangeEnd := startOf sections stop.sectionIndex + stop.offsetInSection

/-- The outer loop of `split_sections`; `none` when the fuel does not suffice. -/
def splitLoop (sections : List StringMergeInputSection) (size : Nat) :
    Nat → Nat → Nat → Nat → List SectionGroup → Option (List SectionGroup)
  | 0, _, _, _, _ => none
  | fuel + 1, sectionIndex, offsetInSection, taken, result =>
    if sectionIndex < sections.length then
      let stop := fillGroup (sections.drop sectionIndex) sectionIndex offsetInSection (asIsize size)
      let group := groupAt sections size result.length taken sectionIndex offsetInSection stop
      let taken := taken + group.offsetsShard.len
      if stop.endSection then
        splitLoop sections size fuel (stop.sectionIndex + 1) 0 taken (result ++ [group])
      else
        splitLoop sections size fuel stop.sectionIndex stop.offsetInSection taken
          (result ++ [group])
    else some result

/-- Splits the sections into groups of at most `size` bytes, but never a section that is not a
string section.  There is no result when `size` is not a multiple of the block size (the
assertion fails) or the loop does not end within `fuel` groups. -/
def splitSections (fuel : Nat) (sections : List StringMergeInputSection) (size : Nat) :
    Option (List SectionGroup) :=
  if size % mapBlockSize = 0 then splitLoop sections size fuel 0 0 0 [] else none

end Srs.StringMerging
