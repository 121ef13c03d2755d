/-
# Writing the value of a relocation

`RelocationKindInfo::write_to_buffer` puts a value at the start of the bytes of a place: as a
number of bytes, as the immediate of an instruction, or, for the difference of two symbols
(`PairSubtractionULEB128`), as a ULEB128 number.

The assembler pads the field of such a number, and its length must not change.  The code writes
the shortest encoding instead: `lengthKept_iff` says for which fields that is the same.
-/
import Srs.Lib.Leb128
import Srs.Lib.Text
import Srs.Relocation.Instructions

namespace Srs.Relocation.Uleb128

open LeBytes Leb128 List Int64

/-! ## 1. Definitions -/

/-- The kinds of relocations, as far as `write_to_buffer` tells them apart. -/
inductive RelocationKind
  | pairSubtractionUleb128 (expectedRType : UInt32)
  | other
  deriving DecidableEq

inductive RelocationSize
  | byteSize (bytes : Nat)
  | bitMasking (instruction : RelocationInstruction) (start stop : Nat)
  deriving DecidableEq

/-- The values from `min` on below `max`. -/
structure AllowedRange where
  min : Int64
  max : Int64
  deriving DecidableEq

namespace AllowedRange

def noCheck : AllowedRange := ⟨minValue, maxValue⟩

def contains (range : AllowedRange) (value : Int64) : Bool := range.min ≤ value ∧ value < range.max

end AllowedRange

structure RelocationKindInfo where
  kind : RelocationKind
  size : RelocationSize
  range : AllowedRange
  alignment : Nat
  deriving DecidableEq

namespace RelocationKindInfo

/-- `RelocationKindInfo::verify` -/
def verify (info : RelocationKindInfo) (value : Int64) : Result Unit := do
  let alignment := info.alignment
  let min := info.range.min
  let max := info.range.max
  failIf (¬ alignment ∣ value.toUInt64.toNat)
    s!"Relocation {value} not aligned to {alignment} bytes"
  failIf (info.range.contains value = false) s!"Relocation {value} outside of bounds [{min}, {max})"

/-- `RelocationKindInfo::write_to_buffer`: the outcome, and the buffer after it. -/
def writeToBuffer (info : RelocationKindInfo) (value : UInt64) (output : Bytes) :
    Result Unit × Bytes :=
  match info.verify value.toInt64 with
  | .error message => (.error message, output)
  | .ok () =>
    match info.kind with
    | .pairSubtractionUleb128 _ =>
      let encoded := writeLeb value.toNat
      let n := encoded.length
      if n ≤ output.length then (.ok (), encoded ++ output.drop n)
      else (.error s!"cannot write encoded ULEB128 value of {n} bytes", output)
    | .other =>
      match info.size with
      | .byteSize byteSize =>
        if byteSize ≤ output.length then
          (.ok (), (leBytes 8 value.toNat).take byteSize ++ output.drop byteSize)
        else (.error "Relocation outside of bounds of section", output)
      | .bitMasking instruction start stop =>
        (.ok (), instruction.writeToValue (extractBitRange value.toNat start stop)
          (value.toInt64 < 0) output)

end RelocationKindInfo

/-- What `relocation_type_from_raw` says of the second relocation of a pair, for RISC-V and for
LoongArch64. -/
def pairInfo (expectedRType : UInt32) : RelocationKindInfo :=
  ⟨.pairSubtractionUleb128 expectedRType, .byteSize 8, AllowedRange.noCheck, 1⟩

/-! ## 2. What is written -/

theorem verify_eq_ok {info : RelocationKindInfo} {value : Int64} :
    info.verify value = .ok () ↔
      info.alignment ∣ value.toUInt64.toNat ∧ info.range.contains value = true := by
  simp only [RelocationKindInfo.verify, bind_eq_ok, failIf_eq_ok]
  simp

theorem contains_noCheck (value : Int64) :
    AllowedRange.noCheck.contains value = true ↔ value ≠ maxValue := by
  have hmin : minValue ≤ value := minValue_le value
  have hmax : value ≤ maxValue := le_maxValue value
  rw [AllowedRange.contains, decide_eq_true_iff]
  exact ⟨fun h => Int64.ne_of_lt h.2, fun h => ⟨hmin, Int64.lt_of_le_of_ne hmax h⟩⟩

/-- The largest `i64` is not in the range that is to check nothing. -/
theorem verify_pairInfo (expectedRType : UInt32) (value : Int64) :
    (pairInfo expectedRType).verify value = .ok () ↔ value ≠ maxValue := by
  rw [verify_eq_ok, ← contains_noCheck]
  exact ⟨fun h => h.2, fun h => ⟨Nat.one_dvd _, h⟩⟩

section

variable (expectedRType : UInt32) {value : UInt64} (output : Bytes)

theorem writeToBuffer_fits (hvalue : value.toInt64 ≠ maxValue)
    (hlen : (writeLeb value.toNat).length ≤ output.length) :
    (pairInfo expectedRType).writeToBuffer value output
      = (.ok (), writeLeb value.toNat ++ output.drop (writeLeb value.toNat).length) := by
  rw [RelocationKindInfo.writeToBuffer, (verify_pairInfo expectedRType _).mpr hvalue]
  exact if_pos hlen

theorem writeToBuffer_short (hvalue : value.toInt64 ≠ maxValue)
    (hlen : output.length < (writeLeb value.toNat).length) :
    ∃ message, (pairInfo expectedRType).writeToBuffer value output = (.error message, output) := by
  rw [RelocationKindInfo.writeToBuffer, (verify_pairInfo expectedRType _).mpr hvalue]
  exact ⟨_, if_neg (Nat.not_le.mpr hlen)⟩

theorem writeToBuffer_maxValue (hvalue : value.toInt64 = maxValue) :
    ∃ message, (pairInfo expectedRType).writeToBuffer value output = (.error message, output) := by
  cases hverify : (pairInfo expectedRType).verify value.toInt64 with
  | error message => exact ⟨message, by rw [RelocationKindInfo.writeToBuffer, hverify]⟩
  | ok _ => exact absurd hvalue ((verify_pairInfo expectedRType _).mp hverify)

end

/-! ## 3. The length of the field -/

/-- **The field keeps its length**: a value that fits into a field is written in as many bytes,
and another one is an error that changes nothing. -/
structure LengthKept (info : RelocationKindInfo) (value : UInt64) (field rest : Bytes) : Prop where
  fits : value.toNat < 2 ^ (7 * field.length) →
    (info.writeToBuffer value (field ++ rest)).1 = .ok () ∧
      ∃ written, IsField written ∧ decode written = some (value.toNat, []) ∧
        written.length = field.length ∧
        (info.writeToBuffer value (field ++ rest)).2 = written ++ rest
  tooLarge : 2 ^ (7 * field.length) ≤ value.toNat →
    (∃ message, (info.writeToBuffer value (field ++ rest)).1 = .error message) ∧
      (info.writeToBuffer value (field ++ rest)).2 = field ++ rest

/-- The value needs all bytes of the field, or does not even fit into the buffer.  The largest
`i64` is refused. -/
def ShortestIsKept (value : UInt64) (field rest : Bytes) : Prop :=
  if value.toNat < 2 ^ (7 * field.length) then
    (field.length = 1 ∨ 2 ^ (7 * (field.length - 1)) ≤ value.toNat) ∧ value.toNat ≠ 2 ^ 63 - 1
  else 2 ^ (7 * (field.length + rest.length)) ≤ value.toNat ∨ value.toNat = 2 ^ 63 - 1

instance (value : UInt64) (field rest : Bytes) : Decidable (ShortestIsKept value field rest) := by
  unfold ShortestIsKept
  infer_instance

theorem toInt64_eq_maxValue {value : UInt64} :
    value.toInt64 = maxValue ↔ value.toNat = 2 ^ 63 - 1 := by
  constructor
  · intro h
    have hback := congrArg toUInt64 h
    rw [UInt64.toUInt64_toInt64] at hback
    rw [hback]
    rfl
  · intro h
    have hvalue : value = UInt64.ofNat (2 ^ 63 - 1) := UInt64.toNat_inj.mp (by rw [h]; rfl)
    rw [hvalue]
    rfl

variable {field rest : Bytes}

/-- The shortest encoding has the field's length when the value needs all of it. -/
theorem length_writeLeb_eq (hfield : IsField field) {value : Nat}
    (hfits : value < 2 ^ (7 * field.length)) :
    (writeLeb value).length = field.length
      ↔ field.length = 1 ∨ 2 ^ (7 * (field.length - 1)) ≤ value := by
  have hpos := length_pos_iff.mpr hfield.ne_nil
  have hle := (length_writeLeb_le hpos value).mpr hfits
  have hwritten := length_pos_iff.mpr (writeLeb_ne_nil value)
  by_cases hone : field.length = 1
  · simp only [hone, true_or, iff_true]
    omega
  · have hbelow := length_writeLeb_le (n := field.length - 1) (by omega) value
    simp only [hone, false_or, ← Nat.not_lt, ← hbelow]
    omega

/-- A value that fits and is not refused is written as its shortest encoding. -/
theorem lengthKept_of_fits (expectedRType : UInt32) {value : UInt64}
    (hfield : IsField field) (hfits : value.toNat < 2 ^ (7 * field.length))
    (hvalue : value.toInt64 ≠ maxValue) :
    LengthKept (pairInfo expectedRType) value field rest
      ↔ (writeLeb value.toNat).length = field.length := by
  have hpos := length_pos_iff.mpr hfield.ne_nil
  have hle := (length_writeLeb_le hpos value.toNat).mpr hfits
  have hwrite := writeToBuffer_fits expectedRType (field ++ rest) hvalue
    (by rw [length_append]; omega)
  constructor
  · rintro ⟨hkept, -⟩
    obtain ⟨-, written, hwritten, hdecode, -, hbuffer⟩ := hkept hfits
    rw [hwrite] at hbuffer
    -- both sides of the buffer are decoded, and what follows the number has the same length
    have hboth := congrArg decode hbuffer
    rw [decode_writeLeb, hwritten.decode_append, hdecode] at hboth
    have hrest := congrArg List.length (Prod.mk.inj (Option.some.inj hboth)).2
    rw [length_drop, length_append, nil_append] at hrest
    omega
  · intro hlen
    refine ⟨fun _ => ?_, fun hlarge => absurd hfits (Nat.not_lt.mpr hlarge)⟩
    rw [hwrite]
    refine ⟨rfl, writeLeb value.toNat, isField_writeLeb _, ?_, hlen, ?_⟩
    · have hdecode := decode_writeLeb [] value.toNat
      rwa [append_nil] at hdecode
    · rw [hlen, drop_left]

/-- A value that does not fit and is not refused is an error when the whole buffer is too short. -/
theorem lengthKept_of_tooLarge (expectedRType : UInt32) {value : UInt64}
    (hfield : IsField field) (hlarge : 2 ^ (7 * field.length) ≤ value.toNat)
    (hvalue : value.toInt64 ≠ maxValue) :
    LengthKept (pairInfo expectedRType) value field rest
      ↔ 2 ^ (7 * (field.length + rest.length)) ≤ value.toNat := by
  have hpos := length_pos_iff.mpr hfield.ne_nil
  have hshort := length_writeLeb_le (n := field.length + rest.length) (by omega) value.toNat
  constructor
  · rintro ⟨-, hkept⟩
    obtain ⟨⟨message, herror⟩, -⟩ := hkept hlarge
    by_contra hlt
    have hwrite := writeToBuffer_fits expectedRType (field ++ rest) hvalue
      (by rw [length_append]; exact hshort.mpr (Nat.not_le.mp hlt))
    rw [hwrite] at herror
    cases herror
  · intro hbuffer
    refine ⟨fun hfits => absurd hfits (Nat.not_lt.mpr hlarge), fun _ => ?_⟩
    obtain ⟨message, herror⟩ := writeToBuffer_short expectedRType (field ++ rest) hvalue
      (by rw [length_append]; exact Nat.not_le.mp fun hle =>
        absurd (hshort.mp hle) (Nat.not_lt.mpr hbuffer))
    rw [herror]
    exact ⟨⟨message, rfl⟩, rfl⟩

/-- The largest `i64` is an error in any field. -/
theorem lengthKept_maxValue (expectedRType : UInt32) {value : UInt64}
    (hvalue : value.toInt64 = maxValue) :
    LengthKept (pairInfo expectedRType) value field rest
      ↔ ¬ value.toNat < 2 ^ (7 * field.length) := by
  obtain ⟨message, herror⟩ := writeToBuffer_maxValue expectedRType (field ++ rest) hvalue
  constructor
  · rintro ⟨hkept, -⟩ hfits
    obtain ⟨hok, -⟩ := hkept hfits
    rw [herror] at hok
    cases hok
  · intro hlarge
    refine ⟨fun hfits => absurd hfits hlarge, fun _ => ?_⟩
    rw [herror]
    exact ⟨⟨message, rfl⟩, rfl⟩

/-- **When a field keeps its length.** -/
theorem lengthKept_iff (expectedRType : UInt32) {field : Bytes} (hfield : IsField field)
    (value : UInt64) (rest : Bytes) :
    LengthKept (pairInfo expectedRType) value field rest ↔ ShortestIsKept value field rest := by
  unfold ShortestIsKept
  by_cases hvalue : value.toInt64 = maxValue
  · have hmax := toInt64_eq_maxValue.mp hvalue
    rw [lengthKept_maxValue expectedRType hvalue]
    split <;> simp_all
  · have hmax : value.toNat ≠ 2 ^ 63 - 1 := fun h => hvalue (toInt64_eq_maxValue.mpr h)
    split
    · rename_i hfits
      rw [lengthKept_of_fits expectedRType hfield hfits hvalue, length_writeLeb_eq hfield hfits]
      exact ⟨fun h => ⟨h, hmax⟩, fun h => h.1⟩
    · rename_i hlarge
      rw [lengthKept_of_tooLarge expectedRType hfield (Nat.not_lt.mp hlarge) hvalue]
      exact ⟨.inl, fun h => h.resolve_right hmax⟩

/-- A field of two bytes, and a value that needs both. -/
theorem lengthKept_iff_two :
    LengthKept (pairInfo 60) 200 [0x80, 0x00] [0xff] ↔ ShortestIsKept 200 [0x80, 0x00] [0xff] :=
  lengthKept_iff 60 (by decide) 200 [0xff]

/-- A padded field of two bytes shrinks to one for the value 5, and a field of one byte takes the
byte behind it for the value 200. -/
theorem not_lengthKept :
    (IsField [0x80, 0x00] ∧ ¬ LengthKept (pairInfo 60) 5 [0x80, 0x00] [0xff]) ∧
      IsField [0x00] ∧ ¬ LengthKept (pairInfo 60) 200 [0x00] [0xff] := by
  refine ⟨⟨by decide, ?_⟩, by decide, ?_⟩
  · rw [lengthKept_of_fits 60 (by decide) (by decide) (by decide)]
    simp [writeLeb]
  · rw [lengthKept_of_tooLarge 60 (by decide) (by decide) (by decide)]
    decide

end Srs.Relocation.Uleb128
