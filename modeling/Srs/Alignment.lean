/-
# Alignments

`alignment.rs`: an alignment is a power of two with an exponent of at most 16.  Addresses are
`u64`s and are aligned by masking; the lemmas here say what the masks do to the numbers.
-/
import Srs.Lib.Text

namespace Srs

open UInt64 Nat

/-- `Result::context`: the outer message replaces the inner one. -/
def withContext {α : Type} (r : Result α) (message : String) : Result α :=
  match r with
  | .ok a => .ok a
  | .error _ => .error message

@[simp] theorem withContext_ok {α : Type} (a : α) (m : String) :
    withContext (.ok a : Result α) m = .ok a := rfl

theorem withContext_eq_ok {α : Type} {r : Result α} {m : String} {a : α} :
    withContext r m = .ok a ↔ r = .ok a := by
  cases r <;> simp [withContext]

/-- `u64::checked_add`. -/
def checkedAdd (a b : UInt64) : Option UInt64 :=
  if a.toNat + b.toNat < 2 ^ 64 then some (a + b) else none

theorem checkedAdd_eq_some {a b c : UInt64} :
    checkedAdd a b = some c ↔ a.toNat + b.toNat = c.toNat := by
  have hc := c.toNat_lt
  unfold checkedAdd
  split
  · rename_i h
    rw [Option.some.injEq, ← UInt64.toNat_inj, UInt64.toNat_add, mod_eq_of_lt h]
  · rename_i h
    simp only [reduceCtorEq, false_iff]
    omega

/-- `MAX_ALIGNMENT_EXPONENT`. -/
def maxAlignmentExponent : UInt8 := 16

/-- An alignment.  Always a power of two. -/
structure Alignment where
  exponent : UInt8
  supported : exponent.toNat ≤ maxAlignmentExponent.toNat

namespace Alignment

/-- `Alignment::from_exponent`. -/
def fromExponent (exponent : UInt8) : Result Alignment :=
  if h : exponent.toNat ≤ maxAlignmentExponent.toNat then .ok ⟨exponent, h⟩
  else .error ("Unsupported alignment 2^" ++ toString exponent.toNat)

def value (a : Alignment) : UInt64 := 1 <<< a.exponent.toUInt64

def mask (a : Alignment) : UInt64 := a.value - 1

def alignDown (a : Alignment) (v : UInt64) : UInt64 := v &&& ~~~ a.mask

variable {a : Alignment}

theorem fromExponent_eq_ok {exponent : UInt8} :
    fromExponent exponent = .ok a ↔ a.exponent = exponent := by
  unfold fromExponent
  split
  · rw [Except.ok.injEq]
    constructor
    · rintro rfl; rfl
    · rintro rfl; rfl
  · rename_i h
    simp only [reduceCtorEq, false_iff]
    rintro rfl
    exact h a.supported

theorem toNat_value (a : Alignment) : a.value.toNat = 2 ^ a.exponent.toNat := by
  have hs : a.exponent.toNat ≤ 16 := a.supported
  have hlt : 2 ^ a.exponent.toNat < 2 ^ 64 :=
    Nat.pow_lt_pow_right (by decide) (by omega)
  rw [value, UInt64.toNat_shiftLeft, UInt8.toNat_toUInt64,
    mod_eq_of_lt (a := a.exponent.toNat) (by omega), toNat_one, shiftLeft_eq,
    Nat.one_mul, Nat.mod_eq_of_lt hlt]

theorem toNat_mask (a : Alignment) : a.mask.toNat = 2 ^ a.exponent.toNat - 1 := by
  have hpos : 0 < 2 ^ a.exponent.toNat := Nat.two_pow_pos _
  have hle : (1 : UInt64) ≤ a.value := by
    rw [le_iff_toNat_le, toNat_value, toNat_one]
    exact hpos
  rw [mask, UInt64.toNat_sub_of_le _ _ hle, toNat_value, UInt64.toNat_one]

/-- Masking leaves the remainder. -/
theorem toNat_and_mask (a : Alignment) (v : UInt64) :
    (v &&& a.mask).toNat = v.toNat % 2 ^ a.exponent.toNat := by
  rw [UInt64.toNat_and, toNat_mask, and_two_pow_sub_one_eq_mod]

theorem and_mask_eq_zero {v : UInt64} :
    v &&& a.mask = 0 ↔ 2 ^ a.exponent.toNat ∣ v.toNat := by
  rw [← UInt64.toNat_inj, toNat_and_mask, UInt64.toNat_zero, dvd_iff_mod_eq_zero]

/-- A value is its masked bits and the others. -/
theorem and_not_add_and (v m : UInt64) : (v &&& ~~~ m) + (v &&& m) = v := by
  apply UInt64.toBitVec_inj.mp
  simp only [UInt64.toBitVec_add, UInt64.toBitVec_and, UInt64.toBitVec_not]
  rw [BitVec.add_eq_or_of_and_eq_zero]
  · ext i hi
    simp only [BitVec.getElem_or, BitVec.getElem_and, BitVec.getElem_not]
    cases v.toBitVec[i] <;> cases m.toBitVec[i] <;> rfl
  · ext i hi
    simp only [BitVec.getElem_and, BitVec.getElem_not, BitVec.getElem_zero]
    cases v.toBitVec[i] <;> cases m.toBitVec[i] <;> rfl

/-- Aligning down subtracts the remainder. -/
theorem toNat_alignDown (a : Alignment) (v : UInt64) :
    (a.alignDown v).toNat = v.toNat - v.toNat % 2 ^ a.exponent.toNat := by
  have hsum := congrArg toNat (and_not_add_and v a.mask)
  rw [UInt64.toNat_add, toNat_and_mask] at hsum
  have hle : (v &&& ~~~ a.mask).toNat ≤ v.toNat := by
    rw [UInt64.toNat_and]
    exact Nat.and_le_left
  have hmod : v.toNat % 2 ^ a.exponent.toNat ≤ v.toNat := mod_le _ _
  have hv := v.toNat_lt
  rw [alignDown]
  omega

end Alignment

/-- `n` rounded up to a multiple of `2 ^ e`. -/
def roundUp (e n : Nat) : Nat := (n + (2 ^ e - 1)) / 2 ^ e * 2 ^ e

theorem dvd_roundUp (e n : Nat) : 2 ^ e ∣ roundUp e n := Nat.dvd_mul_left _ _

theorem le_roundUp (e n : Nat) : n ≤ roundUp e n := by
  have hpos : 0 < 2 ^ e := Nat.two_pow_pos e
  have h := div_add_mod (n + (2 ^ e - 1)) (2 ^ e)
  have hlt := mod_lt (n + (2 ^ e - 1)) hpos
  rw [roundUp, Nat.mul_comm]
  omega

/-- A sum that does not fit a `u64` is not below any `u64` after rounding either. -/
theorem le_roundUp_of_overflow {e n : Nat} (he : e ≤ 64) (h : 2 ^ 64 ≤ n + (2 ^ e - 1)) :
    2 ^ 64 ≤ roundUp e n := by
  have hdvd : 2 ^ e ∣ 2 ^ 64 := Nat.pow_dvd_pow 2 he
  obtain ⟨k, hk⟩ := hdvd
  have hpos : 0 < 2 ^ e := Nat.two_pow_pos e
  have hdiv : k ≤ (n + (2 ^ e - 1)) / 2 ^ e := by
    rw [Nat.le_div_iff_mul_le hpos, Nat.mul_comm, ← hk]
    exact h
  calc 2 ^ 64 = k * 2 ^ e := by rw [hk, Nat.mul_comm]
    _ ≤ (n + (2 ^ e - 1)) / 2 ^ e * 2 ^ e := mul_le_mul_right _ hdiv

/-! Cursors are not bounded. -/

namespace Alignment

/-- `alignment::MIN`. -/
def minimal : Alignment := ⟨0, by decide⟩

def word : Alignment := ⟨2, by decide⟩

/-- `alignment::MACHO_PAGE_ALIGNMENT`. -/
def machoPage : Alignment := ⟨14, by decide⟩

def bytes (a : Alignment) : Nat := 2 ^ a.exponent.toNat

/-- `Ord::max`. -/
def larger (a b : Alignment) : Alignment := if a.exponent ≤ b.exponent then b else a

/-- `Ord::min`. -/
def smaller (a b : Alignment) : Alignment := if a.exponent ≤ b.exponent then a else b

/-- `Alignment::align_up`. -/
def alignUp (a : Alignment) (value : Nat) : Nat := roundUp a.exponent.toNat value

/-- `Alignment::align_modulo`: the mask is the remainder. -/
def alignModulo (a : Alignment) (refOffset offset : Nat) : Nat :=
  let offset := a.alignUp offset
  if offset % a.bytes = refOffset % a.bytes then offset
  else
    let adjustment := refOffset % a.bytes + a.bytes - offset % a.bytes
    let adjustment := if a.bytes < adjustment then adjustment - a.bytes else adjustment
    offset + adjustment

end Alignment

end Srs
