/-
# Buckets

The second phase of `string_merging.rs`: the strings a group has for a bucket are added to the
bucket, which keeps one copy of each and remembers where it is (`addString`), and the place each
string has in the output is stored where the first phase asked for it (`processSplitOutput`).

A bucket's strings are an interning table (`Represents`), so an offset that is stored while
other strings are still to come is the offset the string has in the finished bucket
(`processSplitOutput_eq`).
-/
import Srs.StringMerging.Sections
import Srs.Lib.Intern

namespace Srs.StringMerging

open Intern List Option UInt32

/-! ## 1. Offsets into buckets -/

/-- A bucket and an offset in it, in the upper `mergeStringBucketBits` and the lower 28 bits. -/
structure BucketOffset where
  raw : UInt32
  deriving DecidableEq, Repr, Inhabited

namespace BucketOffset

def new (offset : UInt32) (bucket : Fin mergeStringBuckets) : Result BucketOffset :=
  if offset ≥ (1 : UInt32) <<< 28 then .error "Merge-string bucket too large"
  else .ok ⟨(ofNat bucket <<< 28) ||| offset⟩

def bucket (o : BucketOffset) : Nat := (o.raw >>> 28).toNat

def offsetInBucket (o : BucketOffset) : Nat := (o.raw &&& (((1 : UInt32) <<< 28) - 1)).toNat

/-- The value of `new` when it does not fail. -/
def make (bucket : Fin mergeStringBuckets) (offset : Nat) : BucketOffset :=
  ⟨(ofNat bucket <<< 28) ||| ofNat offset⟩

variable {offset : Nat}

theorem toNat_make (h : offset < 2 ^ 28) (bucket : Fin mergeStringBuckets) :
    (make bucket offset).raw.toNat = bucket * 2 ^ 28 + offset := by
  have hb : bucket.val < 16 := bucket.isLt
  have hshift : (ofNat bucket <<< 28).toNat = bucket.val <<< 28 := by
    have hmod : bucket.val % 2 ^ 32 = bucket.val := Nat.mod_eq_of_lt (by omega)
    have hlt : bucket.val * 2 ^ 28 < 2 ^ 32 := by omega
    rw [UInt32.toNat_shiftLeft, UInt32.toNat_ofNat', hmod]
    simp only [toNat_ofNat, Nat.shiftLeft_eq]
    exact Nat.mod_eq_of_lt hlt
  have hoff : (ofNat offset).toNat = offset := by
    rw [toNat_ofNat']
    exact Nat.mod_eq_of_lt (by omega)
  rw [make, UInt32.toNat_or, hshift, hoff, ← Nat.shiftLeft_add_eq_or_of_lt h, Nat.shiftLeft_eq]

theorem bucket_eq (o : BucketOffset) : o.bucket = o.raw.toNat / 2 ^ 28 := by
  rw [bucket, UInt32.toNat_shiftRight]
  simp [Nat.shiftRight_eq_div_pow]

theorem offsetInBucket_eq (o : BucketOffset) : o.offsetInBucket = o.raw.toNat % 2 ^ 28 := by
  rw [offsetInBucket, UInt32.toNat_and]
  have h : (((1 : UInt32) <<< 28) - 1).toNat = 2 ^ 28 - 1 := by decide
  rw [h, Nat.and_two_pow_sub_one_eq_mod]

section

variable (h : offset < 2 ^ 28) (bucket : Fin mergeStringBuckets)
include h bucket

theorem new_ofNat :
    new (ofNat offset) bucket = .ok (make bucket offset) := by
  have hoff : (ofNat offset).toNat = offset := by
    rw [toNat_ofNat']
    exact Nat.mod_eq_of_lt (by omega)
  have hge : ¬ ofNat offset ≥ (1 : UInt32) <<< 28 := by
    rw [ge_iff_le, le_iff_toNat_le, hoff]
    have : ((1 : UInt32) <<< 28).toNat = 2 ^ 28 := by decide
    omega
  rw [new, if_neg hge]
  rfl

theorem bucket_make :
    (make bucket offset).bucket = bucket := by
  rw [bucket_eq, toNat_make h]
  omega

theorem offsetInBucket_make
    : (make bucket offset).offsetInBucket = offset := by
  rw [offsetInBucket_eq, toNat_make h]
  omega

end

/-- Moving on inside the bucket is addition on the packed value. -/
theorem add_make {distance : Nat} (h : offset + distance < 2 ^ 28)
    (bucket : Fin mergeStringBuckets) :
    (⟨(make bucket offset).raw + ofNat distance⟩ : BucketOffset)
      = make bucket (offset + distance) := by
  have hb : bucket.val < 16 := bucket.isLt
  have hd : (ofNat distance).toNat = distance := by
    rw [toNat_ofNat']
    exact Nat.mod_eq_of_lt (by omega)
  have htoNat : ((make bucket offset).raw + ofNat distance).toNat
      = (make bucket (offset + distance)).raw.toNat := by
    rw [UInt32.toNat_add, toNat_make (by omega), toNat_make h, hd]
    rw [Nat.mod_eq_of_lt (by omega)]
    omega
  have hraw := UInt32.toNat_inj.mp htoNat
  rw [hraw]

end BucketOffset

/-! ## 2. Buckets -/

structure MergeStringsSectionBucket where
  index : Fin mergeStringBuckets
  /-- Input groups are added in order: the index of the next one. -/
  nextInputGroupIndex : Nat
  /-- The strings in this bucket, in order. -/
  strings : List Slice
  /-- The offset of the next string to be added. -/
  nextOffset : UInt32
  inputStringByteSize : Nat
  inputStringCount : Nat
  /-- The offset of each string, by its contents. -/
  stringOffsets : List (Bytes × UInt32)
  deriving DecidableEq

namespace MergeStringsSectionBucket

def new (index : Fin mergeStringBuckets) : MergeStringsSectionBucket :=
  ⟨index, 0, [], 0, 0, 0, []⟩

/-- The part of `add_string` that changes the bucket: the statistics and the hash map entry.
Returns the string's offset. -/
def entry (b : MergeStringsSectionBucket) (string : PreHashed) :
    MergeStringsSectionBucket × UInt32 :=
  let b := { b with
    inputStringByteSize := b.inputStringByteSize + string.value.len
    inputStringCount := b.inputStringCount + 1 }
  match b.stringOffsets.lookup string.value.bytes with
  | some offset => (b, offset)
  | none =>
    ({ b with
        nextOffset := b.nextOffset + ofNat string.value.len
        strings := b.strings ++ [string.value]
        stringOffsets := (string.value.bytes, b.nextOffset) :: b.stringOffsets },
      b.nextOffset)

/-- Adds a string, unless an identical one is already present. -/
def addString (b : MergeStringsSectionBucket) (string : PreHashed) :
    Result (MergeStringsSectionBucket × BucketOffset) := do
  let (b', offset) := b.entry string
  let o ← BucketOffset.new offset b.index
  .ok (b', o)

end MergeStringsSectionBucket

/-- Where the output offsets of strings are stored: the cells of the offset map, and the offsets
it refused. -/
structure OffsetStore where
  stringOffsets : Nat → Option BucketOffset
  overflowed : List (Nat × BucketOffset)

namespace OffsetStore

/-- Stores the output offset of a string where the string asks for it. -/
def put (store : OffsetStore) (place : OffsetOut) (offset : BucketOffset) : OffsetStore :=
  match place with
  | .inShard key =>
    { store with stringOffsets := Function.update store.stringOffsets key (some offset) }
  | .overflow key => { store with overflowed := store.overflowed ++ [(key, offset)] }

end OffsetStore

/-- Adds the strings of a group to a bucket and stores their output offsets. -/
def processSplitOutput (b : MergeStringsSectionBucket) (store : OffsetStore)
    (stringsToMerge : List StringToMerge) : Result (MergeStringsSectionBucket × OffsetStore) :=
  stringsToMerge.foldlM
    (fun (acc : MergeStringsSectionBucket × OffsetStore) string => do
      let (b, offset) ← acc.1.addString string.string
      .ok (b, acc.2.put string.offsetOut offset))
    (b, store)

/-! ## 3. A bucket is an interning table -/

namespace MergeStringsSectionBucket

/-- The contents of the bucket's strings. -/
def words (b : MergeStringsSectionBucket) : List Bytes := b.strings.map (·.bytes)

/-- The hash map and the next offset are those of the table of the bucket's strings. -/
structure Represents (b : MergeStringsSectionBucket) : Prop where
  lookup : ∀ word, b.stringOffsets.lookup word = (offsetOf word b.words).map ofNat
  next : b.nextOffset = ofNat b.words.flatten.length

theorem represents_new (index : Fin mergeStringBuckets) : (new index).Represents :=
  ⟨fun _ => rfl, rfl⟩

@[simp] theorem entry_index (b : MergeStringsSectionBucket) (string : PreHashed) :
    (b.entry string).1.index = b.index := by
  unfold entry
  dsimp only
  split <;> rfl

@[simp] theorem entry_nextInputGroupIndex (b : MergeStringsSectionBucket) (string : PreHashed) :
    (b.entry string).1.nextInputGroupIndex = b.nextInputGroupIndex := by
  unfold entry
  dsimp only
  split <;> rfl

variable {b : MergeStringsSectionBucket}

section

variable (h : b.Represents) (string : PreHashed)
include h string

/-- What `entry` does, by whether the table has the string. -/
theorem entry_cases :
    (∃ offset, offsetOf string.value.bytes b.words = some offset
        ∧ (b.entry string).2 = ofNat offset
        ∧ (b.entry string).1.strings = b.strings
        ∧ (b.entry string).1.stringOffsets = b.stringOffsets
        ∧ (b.entry string).1.nextOffset = b.nextOffset)
      ∨ (string.value.bytes ∉ b.words
        ∧ (b.entry string).2 = b.nextOffset
        ∧ (b.entry string).1.strings = b.strings ++ [string.value]
        ∧ (b.entry string).1.stringOffsets = (string.value.bytes, b.nextOffset) :: b.stringOffsets
        ∧ (b.entry string).1.nextOffset = b.nextOffset + ofNat string.value.len) := by
  have hl := h.lookup string.value.bytes
  cases ho : offsetOf string.value.bytes b.words with
  | some offset =>
    rw [ho, map_some] at hl
    refine Or.inl ⟨offset, rfl, ?_⟩
    simp only [entry, hl]
    exact ⟨trivial, trivial, trivial, trivial⟩
  | none =>
    rw [ho, map_none] at hl
    refine Or.inr ⟨offsetOf_eq_none.mp ho, ?_⟩
    simp only [entry, hl]
    exact ⟨trivial, trivial, trivial, trivial⟩

theorem words_entry :
    (b.entry string).1.words = intern b.words string.value.bytes := by
  unfold words
  rcases entry_cases h string with ⟨offset, ho, -, hs, -⟩ | ⟨hnot, -, hs, -⟩
  · have hmem : string.value.bytes ∈ b.strings.map (·.bytes) := by
      by_contra hn
      have hnone : offsetOf string.value.bytes b.words = none := offsetOf_eq_none.mpr hn
      rw [hnone] at ho
      cases ho
    rw [hs, intern, if_pos hmem]
  · have hnot' : ¬ string.value.bytes ∈ b.strings.map (·.bytes) := hnot
    rw [hs, intern, if_neg hnot']
    simp

/-- The offset that is returned is where the string is in the table. -/
theorem entry_offset :
    ∃ offset, offsetOf string.value.bytes (b.entry string).1.words = some offset
      ∧ (b.entry string).2 = ofNat offset := by
  rw [words_entry h]
  rcases entry_cases h string with ⟨offset, ho, h2, -⟩ | ⟨hnot, h2, -⟩
  · exact ⟨offset, offsetOf_of_isPrefix ho (isPrefix_intern _ _), h2⟩
  · refine ⟨b.words.flatten.length, ?_, by rw [h2, h.next]⟩
    rw [intern, if_neg hnot]
    exact offsetOf_append_self hnot

theorem Represents.entry :
    (b.entry string).1.Represents := by
  have hw := words_entry h string
  rcases entry_cases h string with ⟨offset, ho, -, hs, hm, hn⟩ | ⟨hnot, -, hs, hm, hn⟩
  · have hsame : (b.entry string).1.words = b.words := by rw [words, hs]; rfl
    exact ⟨fun word => by rw [hm, hsame]; exact h.lookup word, by rw [hn, hsame]; exact h.next⟩
  · rw [intern, if_neg hnot] at hw
    refine ⟨?_, ?_⟩
    · intro word
      rw [hm, hw, lookup_cons]
      by_cases he : word = string.value.bytes
      · subst he
        rw [offsetOf_append_self hnot, beq_self_eq_true, h.next]
        rfl
      · have hbeq : (word == string.value.bytes) = false := by simpa using he
        rw [hbeq, h.lookup word]
        cases ho : offsetOf word b.words with
        | some offset => rw [offsetOf_append ho]
        | none =>
          have hno : word ∉ b.words ++ [string.value.bytes] := by
            simpa [he] using offsetOf_eq_none.mp ho
          rw [offsetOf_eq_none.mpr hno]
    · rw [hn, hw, h.next]
      simp [Slice.len]

end

/-- The bucket after some strings were added. -/
def addAll (b : MergeStringsSectionBucket) (strings : List PreHashed) :
    MergeStringsSectionBucket :=
  strings.foldl (fun b string => (b.entry string).1) b

theorem addAll_cons (b : MergeStringsSectionBucket) (string : PreHashed)
    (strings : List PreHashed) : b.addAll (string :: strings) = (b.entry string).1.addAll strings :=
  rfl

theorem addAll_append (b : MergeStringsSectionBucket) (x y : List PreHashed) :
    b.addAll (x ++ y) = (b.addAll x).addAll y :=
  foldl_append

@[simp] theorem addAll_index : ∀ (strings : List PreHashed) (b : MergeStringsSectionBucket),
    (b.addAll strings).index = b.index
  | [], _ => rfl
  | string :: strings, b => by
    rw [addAll_cons, addAll_index strings, entry_index]

theorem addAll_setNext (next : Nat) : ∀ (strings : List PreHashed)
    (b : MergeStringsSectionBucket),
    ({ b with nextInputGroupIndex := next } : MergeStringsSectionBucket).addAll strings
      = { b.addAll strings with nextInputGroupIndex := next }
  | [], _ => rfl
  | string :: strings, b => by
    have he : (({ b with nextInputGroupIndex := next } : MergeStringsSectionBucket).entry string).1
        = { (b.entry string).1 with nextInputGroupIndex := next } := by
      simp only [entry]
      cases b.stringOffsets.lookup string.value.bytes <;> rfl
    rw [addAll_cons, he, addAll_setNext next strings, addAll_cons]

theorem words_addAll : ∀ {strings : List PreHashed} {b : MergeStringsSectionBucket},
    b.Represents →
      (b.addAll strings).Represents
        ∧ (b.addAll strings).words = internAll b.words (strings.map (·.value.bytes))
  | [], _, h => ⟨h, rfl⟩
  | string :: strings, b, h => by
    obtain ⟨hr, hw⟩ := @words_addAll strings (b.entry string).1 (h.entry string)
    rw [addAll_cons]
    refine ⟨hr, ?_⟩
    rw [hw, words_entry h]
    rfl

end MergeStringsSectionBucket

/-! ## 4. The offsets that are stored -/

/-- The place of a word in the table of a bucket. -/
def placeIn (index : Fin mergeStringBuckets) (table : List Bytes) (word : Bytes) : BucketOffset :=
  .make index ((offsetOf word table).getD 0)

/-- Every word of the table starts at an offset that can be stored. -/
def StartsFit (table : List Bytes) : Prop :=
  ∀ word offset, offsetOf word table = some offset → offset < 2 ^ 28

variable {table : List Bytes}

theorem startsFit_of_length (h : table.flatten.length < 2 ^ 28) :
    StartsFit table := by
  intro word offset ho
  have := (take_drop_of_offsetOf ho).1
  omega

/-- A string that is added to a bucket gets its place in any table that extends the bucket's. -/
theorem addString_eq {b : MergeStringsSectionBucket} (h : b.Represents) (string : PreHashed) (hp : (b.entry string).1.words <+: table) (hstarts : StartsFit table) :
    b.addString string
      = .ok ((b.entry string).1, placeIn b.index table string.value.bytes) := by
  obtain ⟨offset, ho, hret⟩ := MergeStringsSectionBucket.entry_offset h string
  have hfinal := offsetOf_of_isPrefix ho hp
  have hlt := hstarts _ _ hfinal
  simp only [MergeStringsSectionBucket.addString, hret, BucketOffset.new_ofNat hlt, bind,
    Except.bind, placeIn, hfinal, getD_some]

/-- **Processing a group's strings** adds them and stores their places in the finished table. -/
theorem processSplitOutput_eq {table : List Bytes} (hstarts : StartsFit table) :
    ∀ {strings : List StringToMerge} {b : MergeStringsSectionBucket} (store : OffsetStore),
      b.Represents → (b.addAll (strings.map (·.string))).words <+: table →
      processSplitOutput b store strings
        = .ok (b.addAll (strings.map (·.string)),
            strings.foldl
              (fun store s => store.put s.offsetOut (placeIn b.index table s.string.value.bytes))
              store)
  | [], _, _, _, _ => rfl
  | s :: strings, b, store, h, hp => by
    have hnext : (b.entry s.string).1.words <+: table := by
      refine IsPrefix.trans ?_ hp
      rw [map_cons, MergeStringsSectionBucket.addAll_cons,
        (MergeStringsSectionBucket.words_addAll (h.entry s.string)).2]
      exact isPrefix_internAll _ _
    have hrest := @processSplitOutput_eq _ hstarts strings (b.entry s.string).1
      (store.put s.offsetOut (placeIn b.index table s.string.value.bytes)) (h.entry s.string)
      (by rwa [map_cons, MergeStringsSectionBucket.addAll_cons] at hp)
    rw [MergeStringsSectionBucket.entry_index] at hrest
    rw [processSplitOutput, foldlM_cons]
    simp only [addString_eq h s.string hnext hstarts, bind, Except.bind]
    exact hrest

end Srs.StringMerging
