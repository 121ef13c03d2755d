/-
# Numbers in groups of seven bits

LEB128: the lowest seven bits first, every byte but the last with its highest bit set.  The reader
keeps what it has read and how far it is shifted; it gives back the number that was written and
leaves what follows (`readLeb_writeLeb`).

A number has many encodings, the shortest of which is written.  `IsField` is any of them,
`decode` reads them all, and `length_writeLeb_le` says how many bytes the shortest has.
-/
import Srs.Lib.Bytes

namespace Srs.Leb128

open List Nat

/-- `write_usize_leb128`. -/
def writeLeb (value : Nat) : Bytes :=
  if value < 0x80 then [UInt8.ofNat value]
  else UInt8.ofNat (value % 0x80 + 0x80) :: writeLeb (value / 0x80)
termination_by value
decreasing_by omega

/-- The loop of `read_usize_leb128`: words of 64 bits, which a shift past the end leaves. -/
def readLebFrom (result shift : Nat) : Bytes → Option (Nat × Bytes)
  | [] => none
  | byte :: bytes =>
    let result := result ||| (((byte.toNat % 0x80) <<< (shift % 64)) % 2 ^ 64)
    if byte.toNat < 0x80 then some (result, bytes) else readLebFrom result (shift + 7) bytes

/-- `read_usize_leb128`. -/
def readLeb (bytes : Bytes) : Option (Nat × Bytes) := readLebFrom 0 0 bytes

/-- A group of bits that is put above those that are known. -/
theorem or_shifted {result group shift : Nat} (hresult : result < 2 ^ shift) (hshift : shift < 64)
    (hgroup : group * 2 ^ shift < 2 ^ 64) :
    result ||| ((group <<< (shift % 64)) % 2 ^ 64) = result + group * 2 ^ shift := by
  rw [Nat.mod_eq_of_lt hshift, Nat.shiftLeft_eq, Nat.mod_eq_of_lt hgroup, Nat.or_comm,
    Nat.mul_comm group, ← Nat.two_pow_add_eq_or_of_lt hresult, Nat.add_comm]

theorem readLebFrom_writeLeb (rest : Bytes) (value : Nat) : ∀ {result shift : Nat},
    result < 2 ^ shift → shift < 64 → value * 2 ^ shift < 2 ^ 64 →
      readLebFrom result shift (writeLeb value ++ rest)
        = some (result + value * 2 ^ shift, rest) := by
  induction value using Nat.strongRecOn with
  | ind value ih =>
    intro result shift hresult hshift hvalue
    rw [writeLeb]
    by_cases hsmall : value < 0x80
    · have hbyte : (UInt8.ofNat value).toNat = value := by
        rw [UInt8.toNat_ofNat']
        omega
      rw [if_pos hsmall, singleton_append, readLebFrom, hbyte, if_pos hsmall,
        mod_eq_of_lt hsmall, or_shifted hresult hshift hvalue]
    · have hbyte : (UInt8.ofNat (value % 0x80 + 0x80)).toNat = value % 0x80 + 0x80 := by
        rw [UInt8.toNat_ofNat']
        omega
      have hlow : (value % 0x80 + 0x80) % 0x80 = value % 0x80 := by omega
      have hpos : 0 < 2 ^ shift := Nat.two_pow_pos shift
      have hgroup : value % 0x80 * 2 ^ shift < 2 ^ 64 :=
        Nat.lt_of_le_of_lt (Nat.mul_le_mul_right _ (Nat.mod_le _ _)) hvalue
      have hpow : 2 ^ (shift + 7) = 0x80 * 2 ^ shift := by
        rw [Nat.pow_add, Nat.mul_comm]
      have hsum : value % 0x80 * 2 ^ shift + value / 0x80 * 2 ^ (shift + 7)
          = value * 2 ^ shift := by
        rw [hpow, ← Nat.mul_assoc, ← Nat.add_mul, Nat.mul_comm (value / 0x80), Nat.mod_add_div]
      -- What is left is not zero, so the next group still has room.
      have hroom : shift + 7 < 64 := by
        by_contra hge
        have hlarge : 2 ^ 64 ≤ 2 ^ (shift + 7) := Nat.pow_le_pow_right (by decide) (by omega)
        have hleft : 0x80 * 2 ^ shift ≤ value * 2 ^ shift := mul_le_mul_right _ (by omega)
        omega
      have hnext : result + value % 0x80 * 2 ^ shift < 2 ^ (shift + 7) := by
        have hle : value % 0x80 * 2 ^ shift ≤ 0x7f * 2 ^ shift := mul_le_mul_right _ (by omega)
        rw [hpow]
        omega
      rw [if_neg hsmall, cons_append, readLebFrom, hbyte, if_neg (by omega), hlow,
        or_shifted hresult hshift hgroup, ih (value / 0x80) (by omega) hnext hroom (by omega)]
      congr 2
      omega

/-- **The number that was written is read**, and what follows is left. -/
theorem readLeb_writeLeb {value : Nat} (h : value < 2 ^ 64) (rest : Bytes) :
    readLeb (writeLeb value ++ rest) = some (value, rest) := by
  have hread := @readLebFrom_writeLeb rest value 0 0 Nat.one_pos (by decide)
    (by rw [Nat.pow_zero, Nat.mul_one]; exact h)
  rwa [Nat.zero_add, Nat.pow_zero, Nat.mul_one] at hread

/-! ## Encodings of any length -/

/-- An encoding: all bytes but the last have their highest bit set. -/
def IsField : Bytes → Prop
  | [] => False
  | [byte] => byte.toNat < 0x80
  | byte :: bytes => 0x80 ≤ byte.toNat ∧ IsField bytes

instance : ∀ field : Bytes, Decidable (IsField field)
  | [] => inferInstanceAs (Decidable False)
  | [byte] => inferInstanceAs (Decidable (byte.toNat < 0x80))
  | _ :: byte :: bytes =>
    have := instDecidableIsField (byte :: bytes)
    inferInstanceAs (Decidable (_ ∧ IsField (byte :: bytes)))

/-- The number at the start of some bytes, and what follows it. -/
def decode : Bytes → Option (Nat × Bytes)
  | [] => none
  | byte :: bytes =>
    if byte.toNat < 0x80 then some (byte.toNat, bytes)
    else (decode bytes).map fun next => (byte.toNat - 0x80 + 0x80 * next.1, next.2)

theorem isField_cons {byte : UInt8} {bytes : Bytes} (h : bytes ≠ []) :
    IsField (byte :: bytes) ↔ 0x80 ≤ byte.toNat ∧ IsField bytes := by
  cases bytes with
  | nil => exact absurd rfl h
  | cons next bytes => rfl

variable {field : Bytes}

theorem IsField.ne_nil (h : IsField field) : field ≠ [] := by
  rintro rfl
  exact h

theorem writeLeb_ne_nil (value : Nat) : writeLeb value ≠ [] := by
  rw [writeLeb]
  split <;> exact cons_ne_nil _ _

theorem isField_writeLeb (value : Nat) : IsField (writeLeb value) := by
  induction value using Nat.strongRecOn with
  | ind value ih =>
    rw [writeLeb]
    by_cases hsmall : value < 0x80
    · rw [if_pos hsmall, IsField, UInt8.toNat_ofNat']
      omega
    · rw [if_neg hsmall, isField_cons (writeLeb_ne_nil _), UInt8.toNat_ofNat']
      exact ⟨by omega, ih (value / 0x80) (by omega)⟩

theorem decode_writeLeb (rest : Bytes) (value : Nat) :
    decode (writeLeb value ++ rest) = some (value, rest) := by
  induction value using Nat.strongRecOn with
  | ind value ih =>
    rw [writeLeb]
    by_cases hsmall : value < 0x80
    · have hbyte : (UInt8.ofNat value).toNat = value := by
        rw [UInt8.toNat_ofNat']
        omega
      rw [if_pos hsmall, singleton_append, decode, hbyte, if_pos hsmall]
    · have hbyte : (UInt8.ofNat (value % 0x80 + 0x80)).toNat = value % 0x80 + 0x80 := by
        rw [UInt8.toNat_ofNat']
        omega
      rw [if_neg hsmall, cons_append, decode, hbyte, if_neg (by omega),
        ih (value / 0x80) (by omega), Option.map_some]
      congr 2
      omega

/-- A field is decoded whatever follows it. -/
theorem IsField.decode_append : IsField field → ∀ rest : Bytes,
    decode (field ++ rest) = (decode field).map fun next => (next.1, next.2 ++ rest) := by
  induction field with
  | nil => exact fun h => h.elim
  | cons byte bytes ih =>
    intro h rest
    rw [cons_append, decode, decode]
    split
    · rfl
    · rename_i hlarge
      have hne : bytes ≠ [] := by
        rintro rfl
        exact hlarge h
      rw [ih ((isField_cons hne).mp h).2 rest, Option.map_map, Option.map_map]
      rfl

/-- **The shortest encoding**: as many bytes as there are groups of seven bits. -/
theorem length_writeLeb_le {n : Nat} (hn : 0 < n) (value : Nat) :
    (writeLeb value).length ≤ n ↔ value < 2 ^ (7 * n) := by
  induction n using Nat.strongRecOn generalizing value with
  | ind n ih =>
    rw [writeLeb]
    obtain ⟨m, rfl⟩ : ∃ m, n = m + 1 := ⟨n - 1, by omega⟩
    have hpow : 2 ^ (7 * (m + 1)) = 2 ^ (7 * m) * 0x80 := by
      rw [Nat.mul_add, Nat.pow_add]
    have hone : 1 ≤ 2 ^ (7 * m) := Nat.one_le_two_pow
    by_cases hsmall : value < 0x80
    · rw [if_pos hsmall, hpow, length_singleton]
      omega
    · rw [if_neg hsmall, length_cons]
      cases m with
      | zero =>
        have hpos := length_pos_iff.mpr (writeLeb_ne_nil (value / 0x80))
        simp only [Nat.zero_add, Nat.mul_one]
        omega
      | succ m =>
        have hrest := ih (m + 1) (lt_succ_self _) (succ_pos m) (value / 0x80)
        have hdiv : value / 0x80 < 2 ^ (7 * (m + 1)) ↔ value < 2 ^ (7 * (m + 1)) * 0x80 :=
          div_lt_iff_lt_mul (by decide)
        rw [hpow, ← hdiv, ← hrest]
        omega

end Srs.Leb128
