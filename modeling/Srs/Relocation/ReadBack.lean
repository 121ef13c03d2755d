/-
# Reading immediates back

`readValue` is documented as the inverse of `writeToValue`.  It is for the formats that take the
value as it is (`RelocationInstruction.readValue_plain`).  The formats that round the high part,
and the pair with the words in the wrong order, are gone through one by one: `Inverse` says for
which values and instructions the value does come back.
-/
import Srs.Relocation.Formats

namespace Srs.Relocation

open BitFields LeBytes List RiscVInstruction
open Srs.Relaxation (asU64)

/-! ## 1. Fields of a word that was written -/

variable {start len : Nat}

variable {keep : Nat}

/-- A field that is not kept is that of the value. -/
theorem bits_keep_or (hkeep : bits keep start len = 0) (w m : Nat) :
    bits (w &&& keep ||| m) start len = bits m start len := by
  refine Nat.eq_of_testBit_eq fun i => ?_
  have hbit : (bits keep start len).testBit i = false := by rw [hkeep, Nat.zero_testBit]
  rw [testBit_bits] at hbit
  rw [testBit_bits, testBit_bits, Nat.testBit_or, Nat.testBit_and]
  cases hi : decide (i < len) with
  | false => rfl
  | true =>
    rw [hi, Bool.true_and] at hbit
    rw [hbit, Bool.and_false, Bool.false_or]

theorem bits_or (a b start len : Nat) :
    bits (a ||| b) start len = bits a start len ||| bits b start len := by
  rw [bits, bits, bits, Nat.shiftRight_or_distrib, Nat.or_mod_two_pow]

/-- A value at the place of the field. -/
theorem bits_shl_self (x k len : Nat) : bits (x <<< k) k len = x % 2 ^ len := by
  rw [bits, Nat.shiftLeft_shiftRight]

/-- A value below the field. -/
theorem bits_of_lt_start {x : Nat} (h : x < 2 ^ start) (len : Nat) :
    bits x start len = 0 := by
  rw [bits, Nat.shiftRight_eq_div_pow, Nat.div_eq_of_lt h, Nat.zero_mod]

/-- A value above the field. -/
theorem bits_shl_above {k : Nat} (h : start + len ≤ k) (x : Nat) :
    bits (x <<< k) start len = 0 := by
  refine Nat.eq_of_testBit_eq fun i => ?_
  rw [testBit_bits, Nat.testBit_shiftLeft, Nat.zero_testBit]
  by_cases hi : i < len
  · have hlow : ¬ k ≤ start + i := by omega
    simp [hlow]
  · simp [hi]

/-- A field of a part of a word. -/
theorem bits_bits {start len from' : Nat} {n : Nat} (h : start + len ≤ n) (w : Nat) :
    bits (bits w from' n) start len = bits w (from' + start) len := by
  refine Nat.eq_of_testBit_eq fun i => ?_
  rw [testBit_bits, testBit_bits, testBit_bits, Nat.add_assoc]
  by_cases hi : i < len
  · have hlt : start + i < n := by omega
    simp [hlt]
  · simp [hi]

/-- A field that is kept. -/
theorem bits_and_ones (hkeep : bits keep start len = 2 ^ len - 1)
    (w : Nat) : bits (w &&& keep) start len = bits w start len := by
  refine Nat.eq_of_testBit_eq fun i => ?_
  have hbit : (bits keep start len).testBit i = decide (i < len) := by
    rw [hkeep, Nat.testBit_two_pow_sub_one]
  rw [testBit_bits] at hbit
  rw [testBit_bits, testBit_bits, Nat.testBit_and]
  cases hi : decide (i < len) with
  | false => rfl
  | true =>
    rw [hi, Bool.true_and] at hbit
    rw [hbit, Bool.and_true]

/-- A field in two parts. -/
theorem bits_split (w start a b : Nat) :
    bits w start (a + b) = bits w start a ||| bits w (start + a) b <<< a := by
  refine Nat.eq_of_testBit_eq fun i => ?_
  rw [Nat.testBit_or, Nat.testBit_shiftLeft, testBit_bits, testBit_bits, testBit_bits]
  by_cases hi : i < a
  · have hsum : i < a + b := by omega
    simp [hi, hsum, Nat.not_le.mpr hi]
  · have hback : start + a + (i - a) = start + i := by omega
    have hiff : i - a < b ↔ i < a + b := by omega
    simp [hi, Nat.not_lt.mp hi, hback, hiff]

/-! ## 2. RISC-V -/

namespace RiscVInstruction

variable {v : Nat} {dest : Bytes} {x : Nat}

/-- The plain formats give the value back. -/
theorem readValue_plain {insn : RiscVInstruction} (h : insn.plain = true)
    (hv : insn.format.Represents v) (hlen : insn.format.size ≤ dest.length) :
    (insn.readValue (insn.writeToValue v dest)).1 % 2 ^ insn.format.width = v := by
  have hok := format_ok insn
  rw [readValue_mod h, wordOf_writeToValue h v hlen]
  exact Format.gather_or_scatter hok (Format.zeroField_and_keep hok _) hv

/-- The rounded high part of a value. -/
def hi20 (v : Nat) : Nat := (v + 0x800) / 2 ^ 12 % 2 ^ 20

theorem mask_uType (hv : v < 2 ^ 32) : mask v uType = hi20 v <<< 12 := by
  have hadd : wrappingAdd v 0x800 = v + 0x800 := Nat.mod_eq_of_lt (by omega)
  have hext : extractBitRange (wrappingAdd v 0x800) 12 32 = bits (v + 0x800) 12 20 := by
    rw [hadd, extractBitRange_eq (by decide)]
  have hhi : bits (v + 0x800) 12 20 = hi20 v := by
    rw [bits, Nat.shiftRight_eq_div_pow, hi20]
  rw [mask, hext, asU32_bits (by decide), shl32_bits (by decide), hhi]

/-- The field of the high part, after it was written. -/
theorem uType_field (hv : v < 2 ^ 32) (hlen : 4 ≤ dest.length) :
    (u32FromSlice (putField 4 utypeImmediateMask (mask v uType) dest) >>> 12) &&& 0xfffff
      = hi20 v := by
  have hfield : ∀ w : Nat, (w >>> 12) &&& 0xfffff = bits w 12 20 := fun w => field_eq w 12 20
  have hlt : hi20 v < 2 ^ 20 := Nat.mod_lt _ (Nat.two_pow_pos _)
  have hmask : mask v uType < 2 ^ (8 * 4) := Nat.mod_lt _ (Nat.two_pow_pos _)
  rw [hfield, u32FromSlice, wordOf_putField (by decide) hmask hlen, bits_keep_or (by decide),
    mask_uType hv, bits_shl_self, Nat.mod_eq_of_lt hlt]

/-- What is read as the high part: it is taken back by 0x800 and not shifted. -/
theorem readUType_mod (hv : v < 2 ^ 32) (hlen : 4 ≤ dest.length) :
    (readUType (putField 4 utypeImmediateMask (mask v uType) dest)).1
      = wrappingSub (asU64 (signExtend32 (hi20 v) 12)) 0x800 := by
  rw [readUType, uType_field hv hlen]

/-- Only one high part agrees in the low bits with what is read of it. -/
theorem hi20_eq_of_read {c : Nat} (hlt : 2 ^ 12 * c < 2 ^ 32) (hmod : x % 2 ^ 20 = c % 2 ^ 20)
    (hback : wrappingSub x 0x800 % 2 ^ 32 = 2 ^ 12 * c) : c = 0x800 := by
  unfold wrappingSub at hback
  omega

/-- A high part never gives the value back. -/
theorem uType_never (hv : (format uType).Represents v) (hlen : 4 ≤ dest.length) :
    (readValue uType (writeToValue uType v dest)).1 % 2 ^ 32 ≠ v := by
  obtain ⟨hlt, c, rfl⟩ := hv
  have hlt : 2 ^ 12 * c < 2 ^ 32 := hlt
  have hread : (readValue uType (writeToValue uType (2 ^ 12 * c) dest)).1
      = wrappingSub (asU64 (signExtend32 (hi20 (2 ^ 12 * c)) 12)) 0x800 := readUType_mod hlt hlen
  have hhi : hi20 (2 ^ 12 * c) = c := by
    unfold hi20
    omega
  change (readValue uType (writeToValue uType (2 ^ 12 * c) dest)).1 % 2 ^ 32 ≠ 2 ^ 12 * c
  rw [hread, hhi]
  have hmod : asU64 (signExtend32 c 12) % 2 ^ 20 = c % 2 ^ 20 :=
    asU64_signExtend32_mod (by decide) c
  intro hback
  -- the one that agrees below does not agree above
  obtain rfl : c = 0x800 := hi20_eq_of_read hlt hmod hback
  have hval : asU64 (signExtend32 0x800 12) = 0x800 := by decide
  rw [hval] at hback
  revert hback
  decide

/-- The field of the low part, after it was written. -/
theorem iType_field (v : Nat) (hlen : 4 ≤ dest.length) :
    (u32FromSlice (putField 4 itypeImmediateMask (mask v iType) dest) >>> 20) &&& 0xfff
      = v % 2 ^ 12 := by
  have hfield : ∀ w : Nat, (w >>> 20) &&& 0xfff = bits w 20 12 := fun w => field_eq w 20 12
  have hmask : mask v iType = bits v 0 12 <<< 20 :=
    (mask_eq_scatter rfl v).trans (Nat.or_zero _)
  have hlt : bits v 0 12 <<< 20 < 2 ^ (8 * 4) := bits_shl_lt (by decide) v 0
  rw [hfield, hmask, u32FromSlice, wordOf_putField (by decide) hlt hlen,
    bits_keep_or (by decide), bits_shl_self]
  exact Nat.mod_mod _ _

/-- What is read from the pair. -/
theorem readValue_uiType (hv : v < 2 ^ 32) (hlen : 8 ≤ dest.length) :
    (readValue uiType (writeToValue uiType v dest)).1
      = shl64 (wrappingSub (asU64 (signExtend32 (hi20 v) 12)) 0x800) 12
        ||| asU64 (signExtend32 (v % 2 ^ 12) 20) := by
  have hfirst : (putField 4 utypeImmediateMask (mask v uType) (dest.take 4)).length = 4 := by
    rw [length_putField, length_take]
    omega
  have htake : 4 ≤ (dest.take 4).length := by
    rw [length_take]
    omega
  have hdrop : 4 ≤ (dest.drop 4).length := by
    rw [length_drop]
    omega
  have hlow : (readIType (putField 4 itypeImmediateMask (mask v iType) (dest.drop 4))).1
      = asU64 (signExtend32 (v % 2 ^ 12) 20) := by
    rw [readIType, iType_field v hdrop, signed]
  simp only [readValue, writeToValue]
  rw [take_left' hfirst, drop_left' hfirst, readUType_mod hv htake, hlow]

/-- The low part without a sign. -/
theorem signExtend_low (h : x < 2 ^ 11) : asU64 (signExtend32 x 20) = x := by
  have hext : signExtend32 x 20 = x := by
    unfold signExtend32
    rw [Int.bmod_eq_of_le (by omega) (by omega)]
    omega
  rw [hext, asU64]
  omega

/-- The low part with a sign has all bits above. -/
theorem signExtend_high (h : 2 ^ 11 ≤ x) (hlt : x < 2 ^ 12) :
    asU64 (signExtend32 x 20) = (2 ^ 52 - 1) <<< 12 + x := by
  have hwrap : ((x * 2 ^ 20 : Nat) : Int).bmod (2 ^ 32) = ((x * 2 ^ 20 : Nat) : Int) - 2 ^ 32 := by
    rw [← Int.sub_bmod_right, Int.bmod_eq_of_le (by omega) (by omega)]
    rfl
  have hext : signExtend32 x 20 = (x : Int) - 2 ^ 12 := by
    unfold signExtend32
    rw [hwrap]
    omega
  rw [hext, asU64, Nat.shiftLeft_eq]
  omega

/-- All ones take any other bits. -/
theorem or_ones {a n : Nat} (h : a < 2 ^ n) : a ||| (2 ^ n - 1) = 2 ^ n - 1 := by
  refine Nat.eq_of_testBit_eq fun i => ?_
  rw [Nat.testBit_or, Nat.testBit_two_pow_sub_one]
  by_cases hi : i < n
  · simp [hi]
  · have hle : 2 ^ n ≤ 2 ^ i := Nat.pow_le_pow_right (by decide) (by omega)
    rw [Nat.testBit_lt_two_pow (by omega), Bool.false_or]

/-- The pair gives the value back only near the top, where the sign of the low part fills the
rest. -/
theorem uiType_iff (hv : v < 2 ^ 32) (hlen : 8 ≤ dest.length) :
    (readValue uiType (writeToValue uiType v dest)).1 % 2 ^ 32 = v ↔ 2 ^ 32 - 2 ^ 11 ≤ v := by
  rw [readValue_uiType hv hlen]
  have hmod : asU64 (signExtend32 (hi20 v) 12) % 2 ^ 20 = hi20 v % 2 ^ 20 :=
    asU64_signExtend32_mod (by decide) (hi20 v)
  generalize asU64 (signExtend32 (hi20 v) 12) = x at hmod ⊢
  have hshl : shl64 (wrappingSub x 0x800) 12 = bits (wrappingSub x 0x800) 0 52 <<< 12 :=
    shl_mod _ 12 52
  have hlow : v % 2 ^ 12 < 2 ^ 12 := Nat.mod_lt _ (Nat.two_pow_pos _)
  rw [hshl]
  by_cases hneg : v % 2 ^ 12 < 2 ^ 11
  · rw [signExtend_low hneg, ← Nat.shiftLeft_add_eq_or_of_lt hlow, Nat.shiftLeft_eq, bits,
      Nat.shiftRight_zero]
    unfold hi20 at hmod
    unfold wrappingSub
    omega
  · have hones : bits (wrappingSub x 0x800) 0 52 ||| (2 ^ 52 - 1) = 2 ^ 52 - 1 :=
      or_ones (Nat.mod_lt _ (Nat.two_pow_pos _))
    rw [signExtend_high (by omega) hlow, Nat.shiftLeft_add_eq_or_of_lt hlow, ← Nat.or_assoc,
      ← Nat.shiftLeft_or_distrib, hones, ← Nat.shiftLeft_add_eq_or_of_lt hlow, Nat.shiftLeft_eq]
    omega

/-- The compressed high part never gives the value back: it is off by 0x800. -/
theorem cluiType_never (hv : (format cluiType).Represents v) (dest : Bytes) :
    (readValue cluiType dest).1 % 2 ^ 18 ≠ v := by
  obtain ⟨-, c, rfl⟩ := hv
  change (readValue cluiType dest).1 % 2 ^ 18 ≠ 2 ^ 12 * c
  have hoff : ∀ x : Nat, wrappingSub (shl64 x 12) 0x800 % 2 ^ 12 = 0x800 := by
    intro x
    unfold wrappingSub shl64
    rw [Nat.shiftLeft_eq]
    omega
  have hread : (readValue cluiType dest).1 % 2 ^ 12 = 0x800 := hoff _
  omega

end RiscVInstruction

/-! ## 3. LoongArch64 -/

namespace LoongArch64Instruction

variable {v : Nat} {dest : Bytes}

/-- The plain formats give the value back. -/
theorem readValue_plain {insn : LoongArch64Instruction} (h : insn.plain = true)
    (hv : insn.format.Represents v) (hlen : insn.format.size ≤ dest.length) :
    (insn.readValue (insn.writeToValue v dest)).1 % 2 ^ insn.format.width = v := by
  have hok := format_ok insn
  rw [readValue_mod h, wordOf_writeToValue h hv.1 hlen]
  exact Format.gather_or_scatter hok (Format.zeroField_and_keep hok _) hv

/-- The two words of a pair. -/
theorem first_word (w start len : Nat) (h : start + len ≤ 32) :
    (asU32 w >>> start) &&& (2 ^ len - 1) = bits w start len := by
  have hword : asU32 w = bits w 0 32 := rfl
  rw [field_eq, hword, bits_bits h, Nat.zero_add]

theorem second_word (w start len : Nat) (h : start + len ≤ 32) :
    (asU32 (w >>> 32) >>> start) &&& (2 ^ len - 1) = bits w (32 + start) len := by
  have hword : asU32 (w >>> 32) = bits w 32 32 := rfl
  rw [field_eq, hword, bits_bits h]

/-- The parts of `call36` in the words. -/
theorem call36_fields (hv : v < 2 ^ 36) (hlen : 8 ≤ dest.length) :
    bits (wordOf 8 (writeToValue call36 v dest)) 5 20 = (v + 0x8000) / 2 ^ 16 % 2 ^ 20 ∧
      bits (wordOf 8 (writeToValue call36 v dest)) 42 16 = v % 2 ^ 16 := by
  have hlow : v &&& 0xffff = bits v 0 16 := mod_eq_bits v 16
  have hhigh : shl64 ((v + 0x8000) >>> 16) 5 = ((v + 0x8000) / 2 ^ 16) <<< 5 := by
    rw [shl64, Nat.shiftRight_eq_div_pow]
    refine Nat.mod_eq_of_lt ?_
    rw [Nat.shiftLeft_eq]
    omega
  have hword : wordOf 8 (writeToValue call36 v dest)
      = wordOf 8 dest &&& (0xfc0003ff <<< 32 ||| 0xfe00001f)
        ||| (bits v 0 16 <<< 42 ||| ((v + 0x8000) / 2 ^ 16) <<< 5) := by
    have hmask : shl64 (v &&& 0xffff) (32 + 10) ||| shl64 ((v + 0x8000) >>> 16) 5
        = bits v 0 16 <<< 42 ||| ((v + 0x8000) / 2 ^ 16) <<< 5 := by
      rw [hlow, hhigh, shl64_bits (by decide)]
    have hlt : shl64 (v &&& 0xffff) (32 + 10) ||| shl64 ((v + 0x8000) >>> 16) 5 < 2 ^ (8 * 8) :=
      Nat.or_lt_two_pow (Nat.mod_lt _ (Nat.two_pow_pos _)) (Nat.mod_lt _ (Nat.two_pow_pos _))
    rw [writeToValue, wordOf_putField (by decide) hlt hlen, hmask]
  rw [hword]
  constructor
  · rw [bits_keep_or (by decide), bits_or, bits_shl_above (by decide), Nat.zero_or, bits_shl_self]
  · have hbelow : ((v + 0x8000) / 2 ^ 16) <<< 5 < 2 ^ 42 := by
      rw [Nat.shiftLeft_eq]
      omega
    rw [bits_keep_or (by decide), bits_or, bits_shl_self, bits_of_lt_start hbelow, Nat.or_zero]
    exact Nat.mod_mod _ _

/-- Bit 15 that is set in any case. -/
theorem or_bit_fifteen {low : Nat} (h : low < 2 ^ 16) :
    2 ^ 15 ||| low = if low.testBit 15 then low else 2 ^ 15 + low := by
  by_cases hlt : low < 2 ^ 15
  · have hbit : low.testBit 15 = false := Nat.testBit_lt_two_pow hlt
    have hsum := Nat.shiftLeft_add_eq_or_of_lt hlt 1
    rw [hbit]
    exact hsum.symm
  · obtain ⟨rest, rfl⟩ : ∃ rest, low = 2 ^ 15 + rest := ⟨low - 2 ^ 15, by omega⟩
    have hrest : rest < 2 ^ 15 := by omega
    have hsum : 2 ^ 15 + rest = 2 ^ 15 ||| rest := Nat.shiftLeft_add_eq_or_of_lt hrest 1
    have hbit : (2 ^ 15 + rest).testBit 15 = true := by
      rw [hsum, Nat.testBit_or, Nat.testBit_two_pow_self, Bool.true_or]
    rw [hbit, if_pos rfl, hsum, ← Nat.or_assoc, Nat.or_self]

/-- What is read of a far call. -/
theorem readValue_call36 (hv : v < 2 ^ 36) (hlen : 8 ≤ dest.length) :
    (readValue call36 (writeToValue call36 v dest)).1
      = ((v + 0x8000) / 2 ^ 16 + (2 ^ 16 - 1)) % 2 ^ 16 * 2 ^ 16 + (2 ^ 15 ||| v % 2 ^ 16) := by
  obtain ⟨hfirst, hsecond⟩ := call36_fields hv hlen
  have hread : (readValue call36 (writeToValue call36 v dest)).1
      = wrappingSub (shl64 ((v + 0x8000) / 2 ^ 16 % 2 ^ 20) 16) 0x8000 &&& 0xffffffff
        ||| v % 2 ^ 16 := by
    have h1 := first_word (wordOf 8 (writeToValue call36 v dest)) 5 20 (by decide)
    have h2 := second_word (wordOf 8 (writeToValue call36 v dest)) 10 16 (by decide)
    rw [← hfirst, ← hsecond, ← h1, ← h2]
    rfl
  have hcut : wrappingSub (shl64 ((v + 0x8000) / 2 ^ 16 % 2 ^ 20) 16) 0x8000 &&& 0xffffffff
      = ((v + 0x8000) / 2 ^ 16 + (2 ^ 16 - 1)) % 2 ^ 16 * 2 ^ 16 + 2 ^ 15 := by
    have hand : ∀ x : Nat, x &&& 0xffffffff = x % 2 ^ 32 := fun x =>
      Nat.and_two_pow_sub_one_eq_mod x 32
    rw [hand, wrappingSub, shl64, Nat.shiftLeft_eq]
    omega
  have hlow : 2 ^ 15 ||| v % 2 ^ 16 < 2 ^ 16 :=
    Nat.or_lt_two_pow (by decide) (Nat.mod_lt _ (Nat.two_pow_pos _))
  have hhalf : (2 : Nat) ^ 15 < 2 ^ 16 := by decide
  rw [hread, hcut, ← Nat.shiftLeft_eq, Nat.shiftLeft_add_eq_or_of_lt hhalf, Nat.or_assoc,
    ← Nat.shiftLeft_add_eq_or_of_lt hlow]

/-- The far call gives back the values of 32 bits with bit 15: what is taken from the high part is
put over the low part, and the sum is cut to 32 bits. -/
theorem call36_iff (hv : v < 2 ^ 36) (hlen : 8 ≤ dest.length) :
    (readValue call36 (writeToValue call36 v dest)).1 % 2 ^ 36 = v
      ↔ v < 2 ^ 32 ∧ v.testBit 15 = true := by
  have hbit : (v % 2 ^ 16).testBit 15 = v.testBit 15 := by
    rw [Nat.testBit_mod_two_pow]
    rfl
  have hhalf : v.testBit 15 = decide (v / 2 ^ 15 % 2 = 1) := Nat.testBit_eq_decide_div_mod_eq
  rw [readValue_call36 hv hlen, or_bit_fifteen (Nat.mod_lt _ (Nat.two_pow_pos _)), hbit, hhalf]
  by_cases hset : v / 2 ^ 15 % 2 = 1
  · simp only [hset, decide_true, if_true, and_true]
    omega
  · simp only [hset, decide_false, Bool.false_eq_true, if_false, and_false, iff_false]
    omega

/-- The registers of the second word of a pair. -/
def rj (dest : Bytes) : Nat := bits (wordOf 8 dest) 37 5

/-- What is written for `call30`. -/
theorem wordOf_call30 (hv : v < 2 ^ 20) (hlen : 8 ≤ dest.length) :
    wordOf 8 (writeToValue call30 v dest)
      = wordOf 8 dest &&& 0xfff803fffe00001f ||| (bits v 0 9 <<< 42 ||| bits v 9 11 <<< 14) := by
  have hlow : v &&& 0x1ff = bits v 0 9 := mod_eq_bits v 9
  have hhigh : v &&& not64 0x1ff = bits v 9 11 <<< 9 := by
    refine Nat.eq_of_testBit_eq fun i => ?_
    have hnot : (not64 0x1ff).testBit i = (decide (i < 64) && !decide (i < 9)) := by
      have hones := @Nat.testBit_two_pow_sub_succ 0x1ff 64 (by decide) i
      have hmask : (0x1ff : Nat).testBit i = decide (i < 9) := Nat.testBit_two_pow_sub_one 9 i
      rw [hmask] at hones
      exact hones
    rw [Nat.testBit_and, hnot, Nat.testBit_shiftLeft, testBit_bits]
    by_cases hi : i < 9
    · simp [hi, Nat.not_le.mpr hi]
    · have hback : 9 + (i - 9) = i := by omega
      rw [hback]
      by_cases htop : i < 20
      · have h64 : i < 64 := by omega
        have hwithin : i - 9 < 11 := by omega
        simp [hi, h64, hwithin, Nat.not_lt.mp hi]
      · have hle : 2 ^ 20 ≤ 2 ^ i := Nat.pow_le_pow_right (by decide) (by omega)
        rw [Nat.testBit_lt_two_pow (by omega)]
        simp
  have hmask : shl64 (v &&& 0x1ff) (32 + 10) ||| shl64 (v &&& not64 0x1ff) 5
      = bits v 0 9 <<< 42 ||| bits v 9 11 <<< 14 := by
    rw [hlow, hhigh, shl64_bits (by decide), shl64, ← Nat.shiftLeft_add, bits_shl_mod (by decide)]
  have hlt : shl64 (v &&& 0x1ff) (32 + 10) ||| shl64 (v &&& not64 0x1ff) 5 < 2 ^ (8 * 8) :=
    Nat.or_lt_two_pow (Nat.mod_lt _ (Nat.two_pow_pos _)) (Nat.mod_lt _ (Nat.two_pow_pos _))
  have hkeep : 0xfff803ff <<< 32 ||| 0xfe00001f = 0xfff803fffe00001f := by decide
  rw [writeToValue, wordOf_putField (by decide) hlt hlen, hmask, hkeep]

/-- The fields of `call30`, as they are read: the words are taken the other way round, so that
the register of the second word is taken for a part of the value. -/
theorem readValue_call30 (hv : v < 2 ^ 20) (hlen : 8 ≤ dest.length) :
    (readValue call30 (writeToValue call30 v dest)).1 % 2 ^ 20
      = (rj dest ||| bits v 0 6 <<< 5) <<< 9 ||| bits v 9 5 <<< 4 := by
  have hsecond : bits (wordOf 8 (writeToValue call30 v dest)) 37 11
      = rj dest ||| bits v 0 6 <<< 5 := by
    rw [wordOf_call30 hv hlen, bits_split _ 37 5 6]
    have hrj : bits (wordOf 8 dest &&& 0xfff803fffe00001f
        ||| (bits v 0 9 <<< 42 ||| bits v 9 11 <<< 14)) 37 5 = rj dest := by
      rw [bits_or, bits_or, bits_and_ones (by decide), bits_shl_above (by decide),
        bits_of_lt_start (bits_shl_lt (by decide) v 9), Nat.or_zero, Nat.or_zero, rj]
    have hlow : bits (wordOf 8 dest &&& 0xfff803fffe00001f
        ||| (bits v 0 9 <<< 42 ||| bits v 9 11 <<< 14)) (37 + 5) 6 = bits v 0 6 := by
      rw [bits_keep_or (by decide), bits_or, bits_of_lt_start (bits_shl_lt (by decide) v 9),
        Nat.or_zero, bits_shl_self]
      exact @bits_bits 0 6 0 9 (by decide) v
    rw [hrj, hlow]
  have hfirst : bits (wordOf 8 (writeToValue call30 v dest)) 10 9 = bits v 9 5 <<< 4 := by
    rw [wordOf_call30 hv hlen, bits_keep_or (by decide), bits_or, bits_shl_above (by decide),
      Nat.zero_or, bits_split _ 10 4 5, bits_shl_above (by decide), Nat.zero_or, bits_shl_self]
    have hpart : bits v 9 11 % 2 ^ 5 = bits v 9 5 := @bits_bits 0 5 9 11 (by decide) v
    rw [hpart]
  have hread : (readValue call30 (writeToValue call30 v dest)).1
      = shl32 (bits (wordOf 8 (writeToValue call30 v dest)) 37 19) 9
        ||| bits (wordOf 8 (writeToValue call30 v dest)) 10 9 := by
    have h1 := second_word (wordOf 8 (writeToValue call30 v dest)) 5 19 (by decide)
    have h2 := first_word (wordOf 8 (writeToValue call30 v dest)) 10 9 (by decide)
    rw [← h1, ← h2]
    rfl
  have hcut : shl32 (bits (wordOf 8 (writeToValue call30 v dest)) 37 19) 9 % 2 ^ 20
      = bits (wordOf 8 (writeToValue call30 v dest)) 37 11 <<< 9 := by
    rw [shl32_bits (by decide)]
    refine (shl_mod _ 9 11).trans ?_
    rw [bits_bits (by decide)]
  rw [hread, Nat.or_mod_two_pow, hcut, hsecond, hfirst]
  congr 1
  exact bits_shl_mod (by decide) v 9

/-- The values that are the same when their parts are read at the wrong places. -/
theorem call30_fixed {r : Nat} (hv : v < 2 ^ 20) (hr : r < 2 ^ 5) :
    (v % 2 ^ 6 * 2 ^ 5 + r) * 2 ^ 9 + v / 2 ^ 9 % 2 ^ 5 * 2 ^ 4 = v
      ↔ v = r * 2 ^ 4 + r * 2 ^ 9 + r % 4 * 2 ^ 18 := by
  -- the runs of bits that are moved as one
  obtain ⟨a, b, c, d, e, ha, hb, hc, hd, he, rfl⟩ : ∃ a b c d e, a < 16 ∧ b < 4 ∧ c < 8 ∧ d < 32 ∧
      e < 64 ∧ v = a + 16 * b + 64 * c + 512 * d + 16384 * e :=
    ⟨v % 16, v / 16 % 4, v / 64 % 8, v / 512 % 32, v / 16384, by omega, by omega, by omega,
      by omega, by omega, by omega⟩
  obtain ⟨s, t, hs, ht, rfl⟩ : ∃ s t, s < 4 ∧ t < 8 ∧ r = s + 4 * t :=
    ⟨r % 4, r / 4, by omega, by omega, by omega⟩
  have hlow : (a + 16 * b + 64 * c + 512 * d + 16384 * e) % 2 ^ 6 = a + 16 * b := by omega
  have hhigh : (a + 16 * b + 64 * c + 512 * d + 16384 * e) / 2 ^ 9 % 2 ^ 5 = d := by omega
  have hreg : (s + 4 * t) % 4 = s := by omega
  rw [hlow, hhigh, hreg]
  clear hlow hhigh hreg
  constructor
  · intro hback
    obtain rfl : a = 0 := by omega
    obtain rfl : d = b + 4 * c := by
      -- the register is not in the low bits
      generalize (0 + 16 * b) * 2 ^ 5 + (s + 4 * t) = high at hback
      omega
    obtain rfl : s = b := by omega
    omega
  · intro hform
    obtain rfl : a = 0 := by omega
    obtain rfl : s = b := by omega
    obtain rfl : t = c := by omega
    omega

theorem call30_iff (hv : v < 2 ^ 20) (hlen : 8 ≤ dest.length) :
    (readValue call30 (writeToValue call30 v dest)).1 % 2 ^ 20 = v
      ↔ v = rj dest * 2 ^ 4 + rj dest * 2 ^ 9 + rj dest % 4 * 2 ^ 18 := by
  have hrj : rj dest < 2 ^ 5 := Nat.mod_lt _ (Nat.two_pow_pos _)
  have hhigh : rj dest ||| bits v 0 6 <<< 5 = v % 2 ^ 6 * 2 ^ 5 + rj dest := by
    rw [Nat.or_comm, ← Nat.shiftLeft_add_eq_or_of_lt hrj, Nat.shiftLeft_eq, bits,
      Nat.shiftRight_zero]
  have hlow : bits v 9 5 <<< 4 = v / 2 ^ 9 % 2 ^ 5 * 2 ^ 4 := by
    rw [Nat.shiftLeft_eq, bits, Nat.shiftRight_eq_div_pow]
  have hbelow : v / 2 ^ 9 % 2 ^ 5 * 2 ^ 4 < 2 ^ 9 := by omega
  rw [readValue_call30 hv hlen, hhigh, hlow, ← Nat.shiftLeft_add_eq_or_of_lt hbelow,
    Nat.shiftLeft_eq]
  exact call30_fixed hv hrj

end LoongArch64Instruction

/-! ## 4. AArch64 -/

namespace AArch64Instruction

variable {dest : Bytes}

/-- The plain formats give the value back, where the field was empty. -/
theorem readValue_plain {insn : AArch64Instruction} (h : insn.plain = true) {v : Nat}
    (hv : insn.format.Represents v) (negative : Bool) (hlen : insn.format.size ≤ dest.length)
    (hzero : insn.format.ZeroField (wordOf insn.format.size dest)) :
    ∃ r, insn.readValue (insn.writeToValue v negative dest) = some r ∧
      r.1 % 2 ^ insn.format.width = v := by
  obtain ⟨r, hread, hmod⟩ := readValue_mod h (insn.writeToValue v negative dest)
  refine ⟨r, hread, ?_⟩
  rw [hmod, wordOf_writeToValue h hv.1 negative hlen]
  exact Format.gather_or_scatter (format_ok insn) hzero hv

/-- The opcode of `movn` and `movz`. -/
def movOpcode (negative : Bool) : Nat := if negative then 0x92800000 else 0xd2800000

/-- What is put into the field: the complement, for `movn`. -/
def movValue (negative : Bool) (v : Nat) : Nat := if negative then not64 v else v

theorem wordOf_movnz (v : Nat) (negative : Bool) (hlen : 4 ≤ dest.length) :
    wordOf 4 (writeToValue movnz v negative dest)
      = wordOf 4 dest &&& 0x0060001f
        ||| (movOpcode negative ||| bits (movValue negative v) 0 16 <<< 5) := by
  have hmask : movOpcode negative ||| shl32 (asU32 (extractBitRange (movValue negative v) 0 16)) 5
      = movOpcode negative ||| bits (movValue negative v) 0 16 <<< 5 := by
    rw [extractBitRange_eq (by decide), asU32_bits (by decide), shl32_bits (by decide)]
  have hlt : movOpcode negative ||| shl32 (asU32 (extractBitRange (movValue negative v) 0 16)) 5
      < 2 ^ (8 * 4) := by
    refine Nat.or_lt_two_pow ?_ (Nat.mod_lt _ (Nat.two_pow_pos _))
    cases negative <;> decide
  have hput := wordOf_putField (show 0x0060001f < 2 ^ (8 * 4) by decide) hlt hlen
  exact hput.trans (by rw [hmask])

/-- The bit that tells `movz` from `movn`. -/
theorem testBit_movnz (v : Nat) (negative : Bool) (hlen : 4 ≤ dest.length) :
    (wordOf 4 (writeToValue movnz v negative dest)).testBit 30 = !negative := by
  have hkeep : (0x0060001f : Nat).testBit 30 = false := by decide
  have hbelow : (bits (movValue negative v) 0 16 <<< 5).testBit 30 = false :=
    Nat.testBit_lt_two_pow (bits_shl_lt (by decide) _ _)
  have hopcode : (movOpcode negative).testBit 30 = !negative := by cases negative <;> decide
  rw [wordOf_movnz v negative hlen, Nat.testBit_or, Nat.testBit_and, Nat.testBit_or, hkeep,
    hbelow, hopcode, Bool.and_false, Bool.or_false, Bool.false_or]

/-- **The moves give the value back**: the complement is taken twice. -/
theorem readValue_movnz {v : Nat} (hv : v < 2 ^ 16) (negative : Bool) (hlen : 4 ≤ dest.length) :
    ∃ r, readValue movnz (writeToValue movnz v negative dest) = some r ∧ r.1 % 2 ^ 16 = v := by
  have hsign : (wordOf 4 (writeToValue movnz v negative dest) &&& 1 <<< 30 = 0)
      ↔ negative = true := by
    have hbit := testBit_movnz v negative hlen
    have htwo : (1 : Nat) <<< 30 = 2 ^ 30 := rfl
    rw [htwo, Nat.and_two_pow, hbit]
    cases negative <;> decide
  have hfield : lowBits (wordOf 4 (writeToValue movnz v negative dest) >>> 5) 16
      = movValue negative v % 2 ^ 16 := by
    have hlow : lowBits (wordOf 4 (writeToValue movnz v negative dest) >>> 5) 16
        = bits (wordOf 4 (writeToValue movnz v negative dest)) 5 16 := field_eq _ 5 16
    have hopcode : bits (movOpcode negative) 5 16 = 0 := by cases negative <;> decide
    rw [hlow, wordOf_movnz v negative hlen, bits_keep_or (by decide), bits_or, hopcode,
      Nat.zero_or, bits_shl_self]
    exact Nat.mod_mod _ _
  refine ⟨_, rfl, ?_⟩
  simp only [u32FromSlice, hsign, hfield]
  cases negative with
  | false =>
    simp only [movValue, Bool.false_eq_true, if_false]
    omega
  | true =>
    simp only [movValue, if_true, not64]
    omega

end AArch64Instruction

/-! ## 5. All of them -/

namespace RelocationInstruction

def format : RelocationInstruction → Format
  | aArch64 insn => insn.format
  | riscV insn => insn.format
  | loongArch64 insn => insn.format

/-- The value that was written comes back, up to the width of the field. -/
def ReadsBack (insn : RelocationInstruction) (v : Nat) (negative : Bool) (dest : Bytes) : Prop :=
  ∃ r, insn.readValue (insn.writeToValue v negative dest) = some r ∧
    r.1 % 2 ^ insn.format.width = v

/-- For which values and instructions `readValue` is the inverse of `writeToValue`: the rounded
high parts never, the pairs for a few. -/
def Inverse (insn : RelocationInstruction) (v : Nat) (dest : Bytes) : Prop :=
  match insn with
  | riscV .uType | riscV .cluiType => False
  | riscV .uiType => 2 ^ 32 - 2 ^ 11 ≤ v
  | loongArch64 .call36 => v < 2 ^ 32 ∧ v.testBit 15 = true
  | loongArch64 .call30 =>
    let rj := LoongArch64Instruction.rj dest
    v = rj * 2 ^ 4 + rj * 2 ^ 9 + rj % 4 * 2 ^ 18
  | _ => True

/-- **When `readValue` is the inverse of `writeToValue`.** -/
theorem read_value_inverse_iff {insn : RelocationInstruction} (hinsn : insn ≠ aArch64 .machOLow12)
    {v : Nat} (hv : insn.format.Represents v) (negative : Bool) {dest : Bytes}
    (hlen : insn.format.size ≤ dest.length)
    (hzero : insn.format.ZeroField (wordOf insn.format.size dest)) :
    insn.ReadsBack v negative dest ↔ insn.Inverse v dest := by
  cases insn with
  | aArch64 insn =>
    refine iff_of_true ?_ trivial
    cases insn with
    | machOLow12 => exact absurd rfl hinsn
    | movnz => exact AArch64Instruction.readValue_movnz hv.1 negative hlen
    | _ => exact AArch64Instruction.readValue_plain rfl hv negative hlen hzero
  | riscV insn =>
    have hsome : ReadsBack (riscV insn) v negative dest
        ↔ (insn.readValue (insn.writeToValue v dest)).1 % 2 ^ insn.format.width = v := by
      simp [ReadsBack, readValue, writeToValue, format]
    rw [hsome]
    cases insn with
    | uiType => exact uiType_iff hv.1 hlen
    | uType => exact iff_of_false (uType_never hv hlen) id
    | cluiType => exact iff_of_false (cluiType_never hv _) id
    | _ => exact iff_of_true (readValue_plain rfl hv hlen) trivial
  | loongArch64 insn =>
    have hsome : ReadsBack (loongArch64 insn) v negative dest
        ↔ (insn.readValue (insn.writeToValue v dest)).1 % 2 ^ insn.format.width = v := by
      simp [ReadsBack, readValue, writeToValue, format]
    rw [hsome]
    cases insn with
    | call30 => exact LoongArch64Instruction.call30_iff hv.1 hlen
    | call36 => exact LoongArch64Instruction.call36_iff hv.1 hlen
    | _ => exact iff_of_true (LoongArch64Instruction.readValue_plain rfl hv hlen) trivial

/-- `jal ra` and `lui a0` with an empty immediate. -/
def jalWord : Bytes := [0xef, 0, 0, 0]

def luiWord : Bytes := [0x37, 0x05, 0, 0]

theorem jal_reads_back : ReadsBack (riscV .jType) 0x1234 false jalWord := by
  refine (read_value_inverse_iff (by decide) ⟨by decide, by decide⟩ false (by decide) ?_).mpr
    trivial
  intro i hi
  have hlt : i < 32 := Format.lt_of_holds (format_ok .jType) hi
  revert hi
  revert i
  decide

/-- The `lui` of 0x1000 is read as `1 - 0x800`. -/
theorem lui_not_read_back :
    (format (riscV .uType)).Represents 0x1000 ∧ (format (riscV .uType)).size ≤ luiWord.length ∧
      (format (riscV .uType)).ZeroField (wordOf 4 luiWord) ∧
      (riscV .uType).readValue ((riscV .uType).writeToValue 0x1000 false luiWord)
        = some (2 ^ 64 - 0x7ff, false) ∧
      ¬ ReadsBack (riscV .uType) 0x1000 false luiWord := by
  have hread : (riscV .uType).readValue ((riscV .uType).writeToValue 0x1000 false luiWord)
      = some (2 ^ 64 - 0x7ff, false) := by decide
  refine ⟨⟨by decide, by decide⟩, by decide, ?_, hread, ?_⟩
  · intro i hi
    have hlt : i < 32 := Format.lt_of_holds (format_ok .uType) hi
    revert hi
    revert i
    decide
  · rintro ⟨r, hr, hback⟩
    obtain rfl : _ = r := Option.some.inj (hread.symm.trans hr)
    revert hback
    decide

end RelocationInstruction

end Srs.Relocation
