/-
# Bytes of texts

Bytes that are a text in UTF-8 are the bytes of that text (`utf8_fromUtf8`), and hexadecimal digits
are one byte each, none of which is zero or above `f`.
-/
import Srs.Lib.Bytes

namespace Srs.Bytes

open List Option

theorem utf8_fromUtf8 {bytes : Bytes} {t : Text} (h : fromUtf8 bytes = some t) :
    utf8 t = bytes := by
  obtain ⟨chars, hchars, rfl⟩ := map_eq_some_iff.mp h
  obtain ⟨l, hl⟩ := ByteArray.isSome_utf8Decode?_iff.mp (by rw [hchars]; rfl)
  have hdecode := @List.utf8Decode?_utf8Encode l
  rw [← hl, hchars, some.injEq] at hdecode
  have heq := byteArray_utf8 chars.toList
  rw [hdecode, List.toList_toArray, ← hl] at heq
  have hdata := congrArg (fun b => b.data.toList) heq
  simpa [hdecode] using hdata

@[simp] theorem utf8_nil : utf8 [] = [] := rfl

theorem utf8_cons (c : Char) (t : Text) : utf8 (c :: t) = String.utf8EncodeChar c ++ utf8 t := rfl

theorem utf8_inj {s t : Text} : utf8 s = utf8 t ↔ s = t := by
  refine ⟨fun h => ?_, fun h => by rw [h]⟩
  have hread := fromUtf8_utf8 s
  rw [h, fromUtf8_utf8] at hread
  exact (some.inj hread).symm

theorem utf8_eq_nil {t : Text} : utf8 t = [] ↔ t = [] := by
  constructor
  · intro h
    have hread := fromUtf8_utf8 t
    rw [h] at hread
    have hempty : fromUtf8 [] = some [] := fromUtf8_utf8 []
    rw [hempty, some.injEq] at hread
    exact hread.symm
  · rintro rfl
    rfl

/-- The bytes of hexadecimal digits. -/
def IsHexByte (b : UInt8) : Prop := 48 ≤ b.toNat ∧ b.toNat ≤ 102

theorem utf8EncodeChar_of_isHex {c : Char} (h : IsHex c) :
    ∃ b, String.utf8EncodeChar c = [b] ∧ IsHexByte b := by
  have hle : c.toNat ≤ 102 := by
    rcases h with h | h
    · exact Nat.le_trans (show c.toNat ≤ 57 from h.2) (by decide)
    · exact h.2
  have hge : 48 ≤ c.toNat := by
    rcases h with h | h
    · exact h.1
    · exact Nat.le_trans (by decide) (show 97 ≤ c.toNat from h.1)
  have hnat : (UInt8.ofNat c.toNat).toNat = c.toNat := by
    rw [UInt8.toNat_ofNat']
    omega
  refine ⟨UInt8.ofNat c.toNat, ?_, by rw [IsHexByte, hnat]; omega⟩
  have hsmall : c.val.toNat ≤ 0x7f := Nat.le_trans hle (by decide)
  simp only [String.utf8EncodeChar]
  split
  · rfl
  · omega

/-- Hexadecimal digits are one byte each. -/
theorem length_utf8_of_isHex : ∀ {t : Text}, (∀ c ∈ t, IsHex c) →
    (utf8 t).length = t.length ∧ ∀ b ∈ utf8 t, IsHexByte b
  | [], _ => ⟨rfl, by simp⟩
  | c :: t, h => by
    obtain ⟨b, hb, hhex⟩ := utf8EncodeChar_of_isHex (h c (by simp))
    obtain ⟨hlen, hall⟩ := length_utf8_of_isHex fun d hd => h d (mem_cons_of_mem _ hd)
    rw [utf8_cons, hb, singleton_append, length_cons, length_cons, hlen]
    refine ⟨rfl, fun d hd => ?_⟩
    rcases mem_cons.mp hd with rfl | hd
    · exact hhex
    · exact hall d hd

end Srs.Bytes
