/-
# Little-endian words in bytes

The number that some bytes stand for, the bytes of a number, and operations that are done byte by
byte: on the first bytes of a buffer they are the operations on the number there
(`wordOf_overlay`).
-/
import Mathlib.Data.Nat.Bitwise
import Srs.Lib.Bytes

namespace Srs.LeBytes

open List Nat

/-! ## 1. Numbers and bytes -/

/-- The number in little-endian bytes. -/
def leValue : Bytes → Nat
  | [] => 0
  | b :: bytes => b.toNat + 256 * leValue bytes

/-- `to_le_bytes`, for a number of `n` bytes. -/
def leBytes : Nat → Nat → Bytes
  | 0, _ => []
  | n + 1, x => UInt8.ofNat (x % 256) :: leBytes n (x / 256)

@[simp] theorem length_leBytes (n : Nat) : ∀ x, (leBytes n x).length = n := by
  induction n with
  | zero => exact fun _ => rfl
  | succ n ih =>
    intro x
    rw [leBytes, length_cons, ih]

theorem leValue_lt (bytes : Bytes) : leValue bytes < 2 ^ (8 * bytes.length) := by
  induction bytes with
  | nil => exact Nat.one_pos
  | cons b bytes ih =>
    have hb := b.toNat_lt
    rw [leValue, length_cons, mul_add, pow_add]
    omega

theorem leValue_leBytes (n : Nat) : ∀ x, leValue (leBytes n x) = x % 2 ^ (8 * n) := by
  induction n with
  | zero =>
    intro x
    rw [leBytes, leValue, Nat.mul_zero, Nat.pow_zero, Nat.mod_one]
  | succ n ih =>
    intro x
    have hpow : 2 ^ (8 * (n + 1)) = 256 * 2 ^ (8 * n) := by
      rw [Nat.mul_add, Nat.pow_add, Nat.mul_comm]
    have hbyte : (UInt8.ofNat (x % 256)).toNat = x % 256 := by
      rw [UInt8.toNat_ofNat']
      omega
    rw [leBytes, leValue, ih, hbyte, hpow, Nat.mod_mul]

theorem testBit_leValue_cons (b : UInt8) (bytes : Bytes) (i : Nat) :
    (leValue (b :: bytes)).testBit i
      = if i < 8 then b.toNat.testBit i else (leValue bytes).testBit (i - 8) := by
  have hb := b.toNat_lt
  rw [leValue, add_comm]
  exact testBit_two_pow_mul_add (leValue bytes) hb i

/-! ## 2. Byte by byte -/

/-- An operation on the first bytes of a buffer. -/
def overlay (op : UInt8 → UInt8 → UInt8) : Bytes → Bytes → Bytes
  | d :: dest, m :: mask => op d m :: overlay op dest mask
  | dest, _ => dest

@[simp] theorem length_overlay (op : UInt8 → UInt8 → UInt8) (mask : Bytes) : ∀ dest : Bytes,
    (overlay op dest mask).length = dest.length := by
  induction mask with
  | nil =>
    intro dest
    cases dest <;> rfl
  | cons m mask ih =>
    intro dest
    cases dest with
    | nil => rfl
    | cons d dest => rw [overlay, length_cons, length_cons, ih]

theorem drop_overlay (op : UInt8 → UInt8 → UInt8) (mask : Bytes) : ∀ dest : Bytes,
    (overlay op dest mask).drop mask.length = dest.drop mask.length := by
  induction mask with
  | nil =>
    intro dest
    cases dest <;> rfl
  | cons m mask ih =>
    intro dest
    cases dest with
    | nil => rfl
    | cons d dest =>
      rw [overlay, length_cons, drop_succ_cons, drop_succ_cons, ih]

/-- The word in the first `n` bytes. -/
def wordOf (n : Nat) (bytes : Bytes) : Nat := leValue (bytes.take n)

theorem wordOf_lt (n : Nat) (bytes : Bytes) : wordOf n bytes < 2 ^ (8 * n) := by
  refine Nat.lt_of_lt_of_le (leValue_lt _) (Nat.pow_le_pow_right (by decide) ?_)
  rw [length_take]
  omega

section

variable {op : UInt8 → UInt8 → UInt8} {f : Bool → Bool → Bool}
  (hop : ∀ (a b : UInt8) (i : Nat), i < 8 →
    (op a b).toNat.testBit i = f (a.toNat.testBit i) (b.toNat.testBit i))
  (hff : f false false = false)
include hop hff

/-- **A bitwise operation on bytes is one on the word.** -/
theorem testBit_wordOf_overlay (mask : Bytes) : ∀ {dest : Bytes}, mask.length ≤ dest.length →
    ∀ i, (wordOf mask.length (overlay op dest mask)).testBit i
      = f ((wordOf mask.length dest).testBit i) ((leValue mask).testBit i) := by
  induction mask with
  | nil =>
    intro dest _ i
    simp [wordOf, leValue, hff]
  | cons m mask ih =>
    intro dest hlen i
    cases dest with
    | nil => simp at hlen
    | cons d dest =>
      have hrest := @ih dest (by simpa using hlen) (i - 8)
      unfold wordOf at hrest ⊢
      rw [overlay, length_cons, take_succ_cons, take_succ_cons,
        testBit_leValue_cons, testBit_leValue_cons, testBit_leValue_cons]
      by_cases hi : i < 8
      · rw [if_pos hi, if_pos hi, if_pos hi, hop d m i hi]
      · rw [if_neg hi, if_neg hi, if_neg hi, hrest]

end

variable {n mask : Nat} {dest : Bytes}

theorem wordOf_or (hmask : mask < 2 ^ (8 * n))
    (hlen : n ≤ dest.length) :
    wordOf n (overlay (· ||| ·) dest (leBytes n mask)) = wordOf n dest ||| mask := by
  have hbits := @testBit_wordOf_overlay (· ||| ·) (· || ·)
    (fun a b i _ => by rw [UInt8.toNat_or, testBit_or]) rfl (leBytes n mask) dest (by simpa)
  rw [length_leBytes, leValue_leBytes, mod_eq_of_lt hmask] at hbits
  refine eq_of_testBit_eq fun i => ?_
  rw [hbits i, testBit_or]

theorem wordOf_and (hmask : mask < 2 ^ (8 * n))
    (hlen : n ≤ dest.length) :
    wordOf n (overlay (· &&& ·) dest (leBytes n mask)) = wordOf n dest &&& mask := by
  have hbits := @testBit_wordOf_overlay (· &&& ·) (· && ·)
    (fun a b i _ => by rw [UInt8.toNat_and, testBit_and]) rfl (leBytes n mask) dest (by simpa)
  rw [length_leBytes, leValue_leBytes, mod_eq_of_lt hmask] at hbits
  refine eq_of_testBit_eq fun i => ?_
  rw [hbits i, testBit_and]

end Srs.LeBytes
