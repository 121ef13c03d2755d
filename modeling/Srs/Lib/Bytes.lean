/-
# Bytes: texts in files, and bytes in texts

A `Vec<u8>` is a list of bytes.  Two conversions are used everywhere and both are undone by
their readers: a text is stored as its UTF-8 bytes (`fromUtf8_utf8`), and bytes are carried
inside a line of text as lower-case hexadecimal (`hexDecode_hexEncode`).  A hexadecimal text
consists of digits and the letters `a` to `f`, so it never contains a separator.
-/
import Srs.Lib.Text

namespace Srs

open List

/-- A `Vec<u8>`. -/
abbrev Bytes := List UInt8

instance : LawfulBEq Bytes := inferInstance

namespace Bytes

open Text

/-! ## 1. UTF-8 -/

/-- `str::as_bytes`. -/
def utf8 (t : Text) : Bytes := t.flatMap String.utf8EncodeChar

/-- `str::from_utf8`. -/
def fromUtf8 (bytes : Bytes) : Option Text :=
  (ByteArray.utf8Decode? ⟨bytes.toArray⟩).map Array.toList

theorem byteArray_utf8 (t : Text) : (⟨(utf8 t).toArray⟩ : ByteArray) = t.utf8Encode := by
  apply ByteArray.ext
  simp [utf8, utf8Encode]

@[simp] theorem fromUtf8_utf8 (t : Text) : fromUtf8 (utf8 t) = some t := by
  simp [fromUtf8, byteArray_utf8]

/-! ## 2. Hexadecimal -/

/-- The lower-case digit of a half byte. -/
def hexDigit (n : Nat) : Char := if n < 10 then Char.ofNat (48 + n) else Char.ofNat (87 + n)

/-- The value of a digit; the decoder takes both cases. -/
def hexValue (c : Char) : Option Nat :=
  if '0' ≤ c ∧ c ≤ '9' then some (c.toNat - 48)
  else if 'a' ≤ c ∧ c ≤ 'f' then some (c.toNat - 87)
  else if 'A' ≤ c ∧ c ≤ 'F' then some (c.toNat - 55)
  else none

/-- `hex::encode`. -/
def hexEncode (bytes : Bytes) : Text :=
  bytes.flatMap fun b => [hexDigit (b.toNat / 16), hexDigit (b.toNat % 16)]

/-- `hex::decode`: an odd number of digits and any other character are refused. -/
def hexDecode : Text → Option Bytes
  | [] => some []
  | [_] => none
  | high :: low :: rest => do
    let h ← hexValue high
    let l ← hexValue low
    let bytes ← hexDecode rest
    return UInt8.ofNat (16 * h + l) :: bytes

/-- A character `hex::encode` writes. -/
def IsHex (c : Char) : Prop := ('0' ≤ c ∧ c ≤ '9') ∨ ('a' ≤ c ∧ c ≤ 'f')

instance (c : Char) : Decidable (IsHex c) := inferInstanceAs (Decidable (_ ∨ _))

theorem hexValue_hexDigit : ∀ n : Fin 16, hexValue (hexDigit n.val) = some n.val := by decide

theorem isHex_hexDigit : ∀ n : Fin 16, IsHex (hexDigit n.val) := by decide

@[simp] theorem hexDecode_hexEncode (bytes : Bytes) : hexDecode (hexEncode bytes) = some bytes := by
  induction bytes with
  | nil => rfl
  | cons b bytes ih =>
    have hhigh := hexValue_hexDigit ⟨b.toNat / 16, by have := b.toNat_lt; omega⟩
    have hlow := hexValue_hexDigit ⟨b.toNat % 16, Nat.mod_lt _ (by decide)⟩
    have hb : 16 * (b.toNat / 16) + b.toNat % 16 = b.toNat := Nat.div_add_mod _ _
    have he : hexEncode (b :: bytes)
        = hexDigit (b.toNat / 16) :: hexDigit (b.toNat % 16) :: hexEncode bytes := rfl
    simp only at hhigh hlow
    rw [he, hexDecode, hhigh, hlow, ih]
    simp only [bind, Option.bind_some, pure]
    rw [hb, UInt8.ofNat_toNat]

variable {bytes : Bytes}

theorem isHex_of_mem_hexEncode {c : Char} (h : c ∈ hexEncode bytes) :
    IsHex c := by
  simp only [hexEncode, mem_flatMap, mem_cons, not_mem_nil, or_false] at h
  obtain ⟨b, -, rfl | rfl⟩ := h
  · exact isHex_hexDigit ⟨b.toNat / 16, by have := b.toNat_lt; omega⟩
  · exact isHex_hexDigit ⟨b.toNat % 16, Nat.mod_lt _ (by decide)⟩

/-- A hexadecimal text contains no character that is not a digit. -/
theorem not_mem_hexEncode {c : Char} (h : ¬ IsHex c) (bytes : Bytes) : c ∉ hexEncode bytes :=
  fun hc => h (isHex_of_mem_hexEncode hc)

@[simp] theorem hexEncode_eq_nil : hexEncode bytes = [] ↔ bytes = [] := by
  cases bytes with
  | nil => simp [hexEncode]
  | cons b bytes => simp [hexEncode]

theorem hexEncode_injective : Function.Injective hexEncode := by
  intro a b h
  have : some a = some b := by rw [← hexDecode_hexEncode a, h, hexDecode_hexEncode]
  exact Option.some.inj this

end Bytes

end Srs
