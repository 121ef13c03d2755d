/-
# Instruction formats

Where the bits of an immediate are in an instruction, as segments of the value and the word
(`format`), and that the encoders put them there: `writeToValue` is `scatter` for the formats that
do not round (`wordOf_writeToValue`), and `readValue` is `gather` up to the sign
(`readValue_mod`).
-/
import Mathlib.Tactic.Ring
import Mathlib.Tactic.Positivity
import Srs.Relocation.Instructions

namespace Srs.Relocation

open BitFields LeBytes List
open Srs.Relaxation (asU64)

/-! ## 1. Fields as segments -/

theorem field_eq (w start len : Nat) : (w >>> start) &&& (2 ^ len - 1) = bits w start len :=
  Nat.and_two_pow_sub_one_eq_mod _ _

theorem extractBitRange_eq {start stop : Nat} (h : ¬ (start = 0 ∧ stop = 64)) (v : Nat) :
    extractBitRange v start stop = bits v start (stop - start) := by
  rw [extractBitRange, if_neg h, field_eq]

variable {len k : Nat}

theorem bits_of_lt {v : Nat} (h : v < 2 ^ len) : bits v 0 len = v := by
  rw [bits, Nat.shiftRight_zero, Nat.mod_eq_of_lt h]

theorem bits_shl_lt {m : Nat} (h : len + k ≤ m) (v start : Nat) :
    bits v start len <<< k < 2 ^ m := by
  rw [Nat.shiftLeft_eq]
  calc bits v start len * 2 ^ k < 2 ^ len * 2 ^ k :=
        Nat.mul_lt_mul_of_pos_right (Nat.mod_lt _ (Nat.two_pow_pos _)) (Nat.two_pow_pos _)
    _ = 2 ^ (len + k) := (Nat.pow_add 2 len k).symm
    _ ≤ 2 ^ m := Nat.pow_le_pow_right (by decide) h

theorem bits_shl_mod {len k m : Nat} (h : len + k ≤ m) (v start : Nat) :
    bits v start len <<< k % 2 ^ m = bits v start len <<< k :=
  Nat.mod_eq_of_lt (bits_shl_lt h v start)

theorem shl64_bits {len k : Nat} (h : len + k ≤ 64) (v start : Nat) :
    shl64 (bits v start len) k = bits v start len <<< k :=
  bits_shl_mod h v start

theorem shl32_bits (h : len + k ≤ 32) (v start : Nat) :
    shl32 (bits v start len) k = bits v start len <<< k :=
  bits_shl_mod h v start

/-- A value of some width at a place. -/
theorem asU32_shl64 {v : Nat} (h : len + k ≤ 32) (hv : v < 2 ^ len) :
    asU32 (shl64 v k) = bits v 0 len <<< k := by
  have hshl := @shl64_bits len k (by omega) v 0
  rw [bits_of_lt hv] at hshl ⊢
  rw [hshl, asU32]
  have hmod := bits_shl_mod h v 0
  rwa [bits_of_lt hv] at hmod

theorem asU32_bits {len : Nat} (h : len ≤ 32) (v start : Nat) :
    asU32 (bits v start len) = bits v start len :=
  Nat.mod_eq_of_lt (Nat.lt_of_lt_of_le (Nat.mod_lt _ (Nat.two_pow_pos _))
    (Nat.pow_le_pow_right (by decide) h))

theorem shl32_asU32 {v k len : Nat} (h : len + k ≤ 32) (hv : v < 2 ^ len) :
    shl32 (asU32 v) k = bits v 0 len <<< k := by
  have hmod := @asU32_bits len (by omega) v 0
  have hshl := shl32_bits h v 0
  rw [bits_of_lt hv] at hmod hshl ⊢
  rw [hmod, hshl]

/-- The low bits at a place, cut off by the width of the word. -/
theorem shl_mod (v k len : Nat) : v <<< k % 2 ^ (len + k) = bits v 0 len <<< k := by
  rw [Nat.shiftLeft_eq, Nat.shiftLeft_eq, Nat.pow_add, Nat.mul_mod_mul_right, bits,
    Nat.shiftRight_zero]

/-- Shifting up and down again, in a word that cuts off. -/
theorem exists_bmod_mul_ediv (x : Nat) {p : Nat} (hp : 0 < p) (m : Nat) :
    ∃ q : Int, ((x * p : Nat) : Int).bmod (p * m) / p = x - m * q := by
  refine ⟨((x * p : Nat) : Int).bdiv (p * m), ?_⟩
  have hfactor : ((x * p : Nat) : Int).bmod (p * m)
      = p * ((x : Int) - m * ((x * p : Nat) : Int).bdiv (p * m)) := by
    rw [Int.bmod_eq_self_sub_mul_bdiv]
    push_cast
    ring
  rw [hfactor, Int.mul_ediv_cancel_left _ (by omega)]

/-- Sign extension keeps the low bits. -/
theorem asU64_signExtend32_mod (hk : k ≤ 32) (x : Nat) :
    asU64 (signExtend32 x k) % 2 ^ (32 - k) = x % 2 ^ (32 - k) := by
  have hsum : k + (32 - k) = 32 := by omega
  have hdvd : (2 : Int) ^ (32 - k) ∣ 2 ^ 64 := pow_dvd_pow 2 (by omega)
  obtain ⟨q, hq⟩ := exists_bmod_mul_ediv x (Nat.two_pow_pos k) (2 ^ (32 - k))
  rw [← pow_add, hsum] at hq
  have hext : signExtend32 x k = (x : Int) - 2 ^ (32 - k) * q := by
    have hcast : ((2 ^ k : Nat) : Int) = 2 ^ k := by rw [Nat.cast_pow, Nat.cast_ofNat]
    have hcast' : ((2 ^ (32 - k) : Nat) : Int) = 2 ^ (32 - k) := by
      rw [Nat.cast_pow, Nat.cast_ofNat]
    rw [hcast, hcast'] at hq
    exact hq
  have hint : ((asU64 (signExtend32 x k) % 2 ^ (32 - k) : Nat) : Int)
      = ((x % 2 ^ (32 - k) : Nat) : Int) := by
    have hcast : ((asU64 (signExtend32 x k) : Nat) : Int) = signExtend32 x k % 2 ^ 64 :=
      Int.toNat_of_nonneg (Int.emod_nonneg _ (by decide))
    rw [Int.natCast_emod, Int.natCast_emod, hcast]
    simp only [Nat.cast_pow, Nat.cast_ofNat]
    rw [Int.emod_emod_of_dvd _ hdvd, hext, Int.sub_mul_emod_self_left]
  exact Int.ofNat_inj.mp hint

theorem lowBitsSigned_mod {numBits : Nat} (hn : numBits ≤ 64) (hpos : 0 < numBits) (v : Nat) :
    lowBitsSigned v numBits % 2 ^ numBits = v % 2 ^ numBits := by
  have hlow : lowBits v numBits = v % 2 ^ numBits := Nat.and_two_pow_sub_one_eq_mod _ _
  unfold lowBitsSigned signExtend
  rw [hlow]
  split
  · refine Nat.eq_of_testBit_eq fun i => ?_
    have hnot : i < numBits → (not64 (2 <<< (numBits - 1) - 1)).testBit i = false := by
      intro hi
      have htwo : 2 <<< (numBits - 1) = 2 ^ numBits := by
        rw [Nat.shiftLeft_eq, ← Nat.pow_succ']
        congr 1
        omega
      have hlt : 2 ^ numBits - 1 < 2 ^ 64 := by
        have := Nat.pow_le_pow_right (show 0 < 2 by decide) hn
        have := Nat.two_pow_pos numBits
        omega
      rw [not64, htwo, Nat.sub_sub, Nat.add_comm 1, Nat.testBit_two_pow_sub_succ hlt]
      simp [Nat.testBit_two_pow_sub_one, hi]
    rw [Nat.testBit_mod_two_pow, Nat.testBit_or, Nat.testBit_mod_two_pow]
    by_cases hi : i < numBits
    · simp [hi, hnot hi]
    · simp [hi]
  · exact Nat.mod_mod _ _

/-! ## 2. Writing into a word -/

theorem length_putField (n keep mask : Nat) (dest : Bytes) :
    (putField n keep mask dest).length = dest.length := by
  rw [putField, orFromSlice, andFromSlice, length_overlay, length_overlay]

variable {dest : Bytes}

theorem wordOf_putField {n keep mask : Nat} (hkeep : keep < 2 ^ (8 * n))
    (hmask : mask < 2 ^ (8 * n)) (hlen : n ≤ dest.length) :
    wordOf n (putField n keep mask dest) = wordOf n dest &&& keep ||| mask := by
  rw [putField, orFromSlice, andFromSlice, wordOf_or hmask (by rwa [length_overlay]),
    wordOf_and hkeep hlen]

theorem wordOf_orFromSlice {n mask : Nat} (hmask : mask < 2 ^ (8 * n))
    (hlen : n ≤ dest.length) :
    wordOf n (orFromSlice dest (leBytes n mask)) = wordOf n dest ||| mask :=
  wordOf_or hmask hlen

/-! ## 3. The formats -/

/-- A format: the bytes it takes, the bits that stay, and the segments of the immediate, which is
a multiple of `2 ^ dropped` below `2 ^ width`. -/
structure Format where
  size : Nat
  keep : Nat
  segments : List Segment
  dropped : Nat
  width : Nat

namespace Format

/-- The segments fit the word, do not meet, are not in what stays, and cover the value. -/
def Ok (f : Format) : Prop :=
  f.segments.Pairwise Segment.Apart ∧ (∀ s ∈ f.segments, s.dst + s.len ≤ 8 * f.size) ∧
    f.keep < 2 ^ (8 * f.size) ∧
    (∀ i < 8 * f.size, holds f.segments i = true → f.keep.testBit i = false) ∧
    ∀ i < f.width, f.dropped ≤ i → covers f.segments i = true

instance (f : Format) : Decidable f.Ok := inferInstanceAs (Decidable (_ ∧ _))

/-- A value that the format can represent. -/
def Represents (f : Format) (v : Nat) : Prop := v < 2 ^ f.width ∧ 2 ^ f.dropped ∣ v

/-- The immediate of a word is zero. -/
def ZeroField (f : Format) (word : Nat) : Prop :=
  ∀ i, holds f.segments i = true → word.testBit i = false

variable {f : Format}

theorem lt_of_holds (h : f.Ok) {i : Nat} (hi : holds f.segments i = true) :
    i < 8 * f.size := by
  obtain ⟨s, hs, hin⟩ := any_eq_true.mp hi
  have hle := h.2.1 s hs
  simp only [Segment.holds, Bool.and_eq_true, decide_eq_true_eq] at hin
  omega

theorem Represents.covers (hok : f.Ok) {v : Nat} (h : f.Represents v) {i : Nat}
    (hi : v.testBit i = true) : covers f.segments i = true := by
  obtain ⟨hlt, hdvd⟩ := h
  refine hok.2.2.2.2 i ?_ ?_
  · by_contra hge
    have hle : 2 ^ f.width ≤ 2 ^ i := Nat.pow_le_pow_right (by decide) (by omega)
    rw [Nat.testBit_lt_two_pow (by omega)] at hi
    cases hi
  · by_contra hlow
    obtain ⟨c, rfl⟩ := hdvd
    rw [Nat.testBit_two_pow_mul] at hi
    simp only [ge_iff_le, Bool.and_eq_true, decide_eq_true_eq] at hi
    omega

/-- What stays is clear of the immediate. -/
theorem zeroField_and_keep (hok : f.Ok) (word : Nat) :
    f.ZeroField (word &&& f.keep) := by
  intro i hi
  rw [Nat.testBit_and, hok.2.2.2.1 i (lt_of_holds hok hi) hi, Bool.and_false]

/-- **A value comes back from a word with an empty field.** -/
theorem gather_or_scatter (hok : f.Ok) {word : Nat} (hword : f.ZeroField word)
    {v : Nat} (hv : f.Represents v) :
    gather f.segments (word ||| scatter f.segments v) = v :=
  gather_scatter hok.1 hword fun _ hi => hv.covers hok hi

/-- What is gathered fits the width. -/
theorem scatter_lt {segs : List Segment} {m : Nat} (h : ∀ s ∈ segs, s.dst + s.len ≤ m) (v : Nat) :
    scatter segs v < 2 ^ m := by
  induction segs with
  | nil => exact Nat.two_pow_pos m
  | cons s segs ih =>
    rw [scatter_cons]
    refine Nat.or_lt_two_pow (bits_shl_lt ?_ v s.src)
      (ih fun t ht => h t (mem_cons_of_mem s ht))
    have := h s mem_cons_self
    omega

end Format

theorem gather_lt {segs : List Segment} {m : Nat}
    (h : ∀ s ∈ segs.map Segment.swap, s.dst + s.len ≤ m) (w : Nat) : gather segs w < 2 ^ m :=
  Format.scatter_lt h w

/-- What is read in a format with a sign, up to the sign. -/
theorem signed_mod {x : Nat} (hk : k ≤ 32) (hx : x < 2 ^ (32 - k)) :
    (signed (signExtend32 x k)).1 % 2 ^ (32 - k) = x := by
  simp only [signed]
  rw [asU64_signExtend32_mod hk, Nat.mod_eq_of_lt hx]

namespace RiscVInstruction

/-- The immediates of the manual.  Those of `uType`, `uiType` and `cluiType` take the high part of
the value plus 0x800. -/
def format : RiscVInstruction → Format
  | uiType => ⟨8, 0x000fffff00000fff, [⟨12, 12, 20⟩, ⟨0, 52, 12⟩], 0, 32⟩
  | uType => ⟨4, utypeImmediateMask, [⟨12, 12, 20⟩], 12, 32⟩
  | iType => ⟨4, itypeImmediateMask, [⟨0, 20, 12⟩], 0, 12⟩
  | sType => ⟨4, stypeImmediateMask, [⟨0, 7, 5⟩, ⟨5, 25, 7⟩], 0, 12⟩
  | bType => ⟨4, btypeImmediateMask, [⟨11, 7, 1⟩, ⟨1, 8, 4⟩, ⟨5, 25, 6⟩, ⟨12, 31, 1⟩], 1, 13⟩
  | jType => ⟨4, jtypeImmediateMask, [⟨12, 12, 8⟩, ⟨11, 20, 1⟩, ⟨1, 21, 10⟩, ⟨20, 31, 1⟩], 1, 21⟩
  | cbType => ⟨2, cbtypeImmediateMask,
      [⟨5, 2, 1⟩, ⟨1, 3, 2⟩, ⟨6, 5, 2⟩, ⟨3, 10, 2⟩, ⟨8, 12, 1⟩], 1, 9⟩
  | cjType => ⟨2, cjtypeImmediateMask,
      [⟨5, 2, 1⟩, ⟨1, 3, 3⟩, ⟨7, 6, 1⟩, ⟨6, 7, 1⟩, ⟨10, 8, 1⟩, ⟨8, 9, 2⟩, ⟨4, 11, 1⟩, ⟨11, 12, 1⟩],
      1, 12⟩
  | cluiType => ⟨2, cluitypeImmediateMask, [⟨12, 2, 5⟩, ⟨17, 12, 1⟩], 12, 18⟩

theorem format_ok (insn : RiscVInstruction) : insn.format.Ok := by
  cases insn <;> decide

/-- Whether the format takes the value as it is. -/
def plain : RiscVInstruction → Bool
  | uiType | uType | cluiType => false
  | _ => true

variable {insn : RiscVInstruction}

/-- **The bits of the value are put where the format has them.** -/
theorem mask_eq_scatter (h : insn.plain = true) (v : Nat) :
    mask v insn = scatter insn.format.segments v := by
  cases insn with
  | uiType | uType | cluiType => cases h
  | iType =>
    have hmod := shl_mod v 20 12
    have hword : mask v iType = v <<< 20 % 2 ^ (12 + 20) :=
      Nat.mod_mod_of_dvd _ (pow_dvd_pow 2 (by decide))
    rw [hword, hmod]
    exact (Nat.or_zero _).symm
  | sType | bType | jType =>
    simp (disch := decide) only [mask, format, scatter, foldr, asU32, extractBit,
      extractBitRange_eq, shl64_bits, Nat.or_mod_two_pow, bits_shl_mod, Nat.or_zero, Nat.reduceSub,
      Nat.reduceAdd, Nat.or_assoc]
  | cbType | cjType =>
    simp (disch := decide) only [mask, format, scatter, foldr, asU16, extractBit,
      extractBitRange_eq, shl64_bits, Nat.or_mod_two_pow, bits_shl_mod, Nat.or_zero, Nat.reduceSub,
      Nat.reduceAdd, Nat.or_assoc]

/-- **The word after a plain format was written.** -/
theorem wordOf_writeToValue (h : insn.plain = true) (v : Nat)
    {dest : Bytes} (hlen : insn.format.size ≤ dest.length) :
    wordOf insn.format.size (insn.writeToValue v dest)
      = wordOf insn.format.size dest &&& insn.format.keep ||| scatter insn.format.segments v := by
  have hok := format_ok insn
  have hlt := Format.scatter_lt hok.2.1 v
  rw [← mask_eq_scatter h] at hlt ⊢
  cases insn with
  | uiType | uType | cluiType => cases h
  | iType | sType | bType | jType | cbType | cjType => exact wordOf_putField hok.2.2.1 hlt hlen

section

variable (w : Nat)

theorem gather_iType : (w >>> 20) &&& 0xfff = gather (format iType).segments w := by
  have h0 : (w >>> 20) &&& 0xfff = bits w 20 12 := field_eq w 20 12
  simp only [h0, gather, format, scatter, List.map, Segment.swap, foldr, Nat.or_zero,
    Nat.shiftLeft_zero]

theorem gather_sType :
    shl32 ((w >>> 25) &&& 0x7f) 5 ||| ((w >>> 7) &&& 0x1f) = gather (format sType).segments w := by
  have h0 : (w >>> 7) &&& 0x1f = bits w 7 5 := field_eq w 7 5
  have h1 : (w >>> 25) &&& 0x7f = bits w 25 7 := field_eq w 25 7
  simp (disch := decide) only [h0, h1, shl32_bits, gather, format, scatter, List.map, Segment.swap,
    foldr, Nat.or_zero, Nat.shiftLeft_zero]
  exact Nat.or_comm _ _

theorem gather_bType :
    shl32 ((w >>> 31) &&& 0x1) 12 ||| shl32 ((w >>> 7) &&& 0x1) 11
        ||| shl32 ((w >>> 25) &&& 0x3f) 5 ||| shl32 ((w >>> 8) &&& 0xf) 1
      = gather (format bType).segments w := by
  have h0 : (w >>> 7) &&& 0x1 = bits w 7 1 := field_eq w 7 1
  have h1 : (w >>> 8) &&& 0xf = bits w 8 4 := field_eq w 8 4
  have h2 : (w >>> 25) &&& 0x3f = bits w 25 6 := field_eq w 25 6
  have h3 : (w >>> 31) &&& 0x1 = bits w 31 1 := field_eq w 31 1
  simp (disch := decide) only [h0, h1, h2, h3, shl32_bits, gather, format, scatter, List.map,
    Segment.swap, foldr, Nat.or_zero]
  simp only [Nat.or_comm, Nat.or_left_comm]

theorem gather_jType :
    shl32 ((w >>> 31) &&& 0x1) 20 ||| shl32 ((w >>> 12) &&& 0xff) 12
        ||| shl32 ((w >>> 20) &&& 0x1) 11 ||| shl32 ((w >>> 21) &&& 0x3ff) 1
      = gather (format jType).segments w := by
  have h0 : (w >>> 12) &&& 0xff = bits w 12 8 := field_eq w 12 8
  have h1 : (w >>> 20) &&& 0x1 = bits w 20 1 := field_eq w 20 1
  have h2 : (w >>> 21) &&& 0x3ff = bits w 21 10 := field_eq w 21 10
  have h3 : (w >>> 31) &&& 0x1 = bits w 31 1 := field_eq w 31 1
  simp (disch := decide) only [h0, h1, h2, h3, shl32_bits, gather, format, scatter, List.map,
    Segment.swap, foldr, Nat.or_zero]
  simp only [Nat.or_comm, Nat.or_left_comm]

theorem gather_cbType :
    ((w >>> 12) &&& 0x1) <<< 8 ||| ((w >>> 5) &&& 0x3) <<< 6 ||| ((w >>> 2) &&& 0x1) <<< 5
        ||| ((w >>> 10) &&& 0x3) <<< 3 ||| ((w >>> 3) &&& 0x3) <<< 1
      = gather (format cbType).segments w := by
  have h0 : (w >>> 2) &&& 0x1 = bits w 2 1 := field_eq w 2 1
  have h1 : (w >>> 3) &&& 0x3 = bits w 3 2 := field_eq w 3 2
  have h2 : (w >>> 5) &&& 0x3 = bits w 5 2 := field_eq w 5 2
  have h3 : (w >>> 10) &&& 0x3 = bits w 10 2 := field_eq w 10 2
  have h4 : (w >>> 12) &&& 0x1 = bits w 12 1 := field_eq w 12 1
  rw [h0, h1, h2, h3, h4]
  simp only [gather, format, scatter, List.map, Segment.swap, foldr, Nat.or_zero]
  simp only [Nat.or_comm, Nat.or_left_comm]

theorem gather_cjType :
    ((w >>> 12) &&& 0x1) <<< 11 ||| ((w >>> 8) &&& 0x1) <<< 10 ||| ((w >>> 9) &&& 0x3) <<< 8
        ||| ((w >>> 6) &&& 0x1) <<< 7 ||| ((w >>> 7) &&& 0x1) <<< 6 ||| ((w >>> 2) &&& 0x1) <<< 5
        ||| ((w >>> 11) &&& 0x1) <<< 4 ||| ((w >>> 3) &&& 0x7) <<< 1
      = gather (format cjType).segments w := by
  have h0 : (w >>> 2) &&& 0x1 = bits w 2 1 := field_eq w 2 1
  have h1 : (w >>> 3) &&& 0x7 = bits w 3 3 := field_eq w 3 3
  have h2 : (w >>> 6) &&& 0x1 = bits w 6 1 := field_eq w 6 1
  have h3 : (w >>> 7) &&& 0x1 = bits w 7 1 := field_eq w 7 1
  have h4 : (w >>> 8) &&& 0x1 = bits w 8 1 := field_eq w 8 1
  have h5 : (w >>> 9) &&& 0x3 = bits w 9 2 := field_eq w 9 2
  have h6 : (w >>> 11) &&& 0x1 = bits w 11 1 := field_eq w 11 1
  have h7 : (w >>> 12) &&& 0x1 = bits w 12 1 := field_eq w 12 1
  rw [h0, h1, h2, h3, h4, h5, h6, h7]
  simp only [gather, format, scatter, List.map, Segment.swap, foldr, Nat.or_zero]
  simp only [Nat.or_comm, Nat.or_left_comm]

end

/-- **What is read in a plain format**, up to the sign. -/
theorem readValue_mod (h : insn.plain = true) (bytes : Bytes) :
    (insn.readValue bytes).1 % 2 ^ insn.format.width
      = gather insn.format.segments (wordOf insn.format.size bytes) := by
  cases insn with
  | uiType | uType | cluiType => cases h
  | iType =>
    have hlt := @gather_lt (format iType).segments 12 (by decide) (u32FromSlice bytes)
    have hread := signed_mod (k := 20) (by decide) hlt
    rw [← gather_iType] at hread
    exact hread.trans (gather_iType _)
  | sType =>
    have hlt := @gather_lt (format sType).segments 12 (by decide) (u32FromSlice bytes)
    have hread := signed_mod (k := 20) (by decide) hlt
    rw [← gather_sType] at hread
    exact hread.trans (gather_sType _)
  | bType =>
    have hlt := @gather_lt (format bType).segments 13 (by decide) (u32FromSlice bytes)
    have hread := signed_mod (k := 19) (by decide) hlt
    rw [← gather_bType] at hread
    exact hread.trans (gather_bType _)
  | jType =>
    have hlt := @gather_lt (format jType).segments 21 (by decide) (u32FromSlice bytes)
    have hread := signed_mod (k := 11) (by decide) hlt
    rw [← gather_jType] at hread
    exact hread.trans (gather_jType _)
  | cbType =>
    have hlt := @gather_lt (format cbType).segments 9 (by decide) (u16FromSlice bytes)
    have hread := signed_mod (k := 23) (by decide) hlt
    rw [← gather_cbType] at hread
    exact hread.trans (gather_cbType _)
  | cjType =>
    have hlt := @gather_lt (format cjType).segments 12 (by decide) (u16FromSlice bytes)
    have hread := signed_mod (k := 20) (by decide) hlt
    rw [← gather_cjType] at hread
    exact hread.trans (gather_cjType _)

end RiscVInstruction

namespace LoongArch64Instruction

/-- The immediates of the manual.  That of `call36` takes the high part of the value plus
0x8000. -/
def format : LoongArch64Instruction → Format
  | shift5 => ⟨4, 0xfe00001f, [⟨0, 5, 20⟩], 0, 20⟩
  | shift10 => ⟨4, 0xffc003ff, [⟨0, 10, 12⟩], 0, 12⟩
  | branch26 => ⟨4, 0xfc000000, [⟨0, 10, 16⟩, ⟨16, 0, 10⟩], 0, 26⟩
  | branch21 => ⟨4, 0xfc0003e0, [⟨0, 10, 16⟩, ⟨16, 0, 5⟩], 0, 21⟩
  | call30 => ⟨8, 0xfff803fffe00001f, [⟨0, 42, 9⟩, ⟨9, 14, 11⟩], 0, 20⟩
  | call36 => ⟨8, 0xfc0003fffe00001f, [⟨0, 42, 16⟩, ⟨16, 5, 20⟩], 0, 36⟩

theorem format_ok (insn : LoongArch64Instruction) : insn.format.Ok := by
  cases insn <;> decide

/-- Whether the format takes the value as it is and has one instruction. -/
def plain : LoongArch64Instruction → Bool
  | call30 | call36 => false
  | _ => true

theorem mod_eq_bits (v len : Nat) : v &&& (2 ^ len - 1) = bits v 0 len := by
  rw [← field_eq, Nat.shiftRight_zero]

/-- The high part of a value of some width. -/
theorem shiftRight_of_lt {v start len : Nat} (h : v < 2 ^ (start + len)) :
    v >>> start = bits v start len := by
  refine (Nat.mod_eq_of_lt ?_).symm
  rw [Nat.shiftRight_eq_div_pow]
  refine Nat.div_lt_of_lt_mul ?_
  rwa [← Nat.pow_add]

/-- The two parts of a branch. -/
theorem branch_mask {v len : Nat} (hlen : len ≤ 32) (hv : v < 2 ^ (16 + len)) :
    asU32 (shl64 (v &&& 0xffff) 10 ||| v >>> 16)
      = scatter [⟨0, 10, 16⟩, ⟨16, 0, len⟩] v := by
  have hlow : v &&& 0xffff = bits v 0 16 := mod_eq_bits v 16
  have hhigh := asU32_bits hlen v 16
  unfold asU32 at hhigh ⊢
  rw [hlow, shiftRight_of_lt hv, Nat.or_mod_two_pow, hhigh]
  simp (disch := decide) only [shl64_bits, bits_shl_mod, scatter, foldr, Nat.or_zero,
    Nat.shiftLeft_zero]

variable {insn : LoongArch64Instruction}

/-- **The word after a plain format was written.** -/
theorem wordOf_writeToValue (h : insn.plain = true) {v : Nat}
    (hv : v < 2 ^ insn.format.width) {dest : Bytes} (hlen : insn.format.size ≤ dest.length) :
    wordOf insn.format.size (insn.writeToValue v dest)
      = wordOf insn.format.size dest &&& insn.format.keep ||| scatter insn.format.segments v := by
  have hok := format_ok insn
  have hlt := Format.scatter_lt hok.2.1 v
  cases insn with
  | call30 | call36 => cases h
  | shift5 =>
    have hmask : asU32 (shl64 v 5) = scatter (format shift5).segments v :=
      (asU32_shl64 (by decide) hv).trans (Nat.or_zero _).symm
    rw [← hmask] at hlt ⊢
    exact wordOf_putField hok.2.2.1 hlt hlen
  | shift10 =>
    have hmask : asU32 (shl64 v 10) = scatter (format shift10).segments v :=
      (asU32_shl64 (by decide) hv).trans (Nat.or_zero _).symm
    rw [← hmask] at hlt ⊢
    exact wordOf_putField hok.2.2.1 hlt hlen
  | branch26 =>
    have hmask := @branch_mask v 10 (by decide) hv
    change _ = scatter (format branch26).segments v at hmask
    rw [← hmask] at hlt ⊢
    exact wordOf_putField hok.2.2.1 hlt hlen
  | branch21 =>
    have hmask := @branch_mask v 5 (by decide) hv
    change _ = scatter (format branch21).segments v at hmask
    rw [← hmask] at hlt ⊢
    exact wordOf_putField hok.2.2.1 hlt hlen

theorem gather_branch26 (w : Nat) :
    shl32 (w &&& 0x3ff) 16 ||| ((w >>> 10) &&& 0xffff) = gather (format branch26).segments w := by
  have h0 : (w >>> 10) &&& 0xffff = bits w 10 16 := field_eq w 10 16
  have h1 : w &&& 0x3ff = bits w 0 10 := mod_eq_bits w 10
  simp (disch := decide) only [h0, h1, shl32_bits, gather, format, scatter, List.map, Segment.swap,
    foldr, Nat.or_zero, Nat.shiftLeft_zero]
  exact Nat.or_comm _ _

theorem gather_branch21 (w : Nat) :
    shl32 (w &&& 0x1f) 16 ||| ((w >>> 10) &&& 0xffff) = gather (format branch21).segments w := by
  have h0 : (w >>> 10) &&& 0xffff = bits w 10 16 := field_eq w 10 16
  have h1 : w &&& 0x1f = bits w 0 5 := mod_eq_bits w 5
  simp (disch := decide) only [h0, h1, shl32_bits, gather, format, scatter, List.map, Segment.swap,
    foldr, Nat.or_zero, Nat.shiftLeft_zero]
  exact Nat.or_comm _ _

/-- **What is read in a plain format**, up to the sign. -/
theorem readValue_mod (h : insn.plain = true) (bytes : Bytes) :
    (insn.readValue bytes).1 % 2 ^ insn.format.width
      = gather insn.format.segments (wordOf insn.format.size bytes) := by
  cases insn with
  | call30 | call36 => cases h
  | shift5 =>
    have h0 : (readValue shift5 bytes).1 = bits (u32FromSlice bytes) 5 20 := field_eq _ 5 20
    rw [h0]
    exact (Nat.mod_mod _ _).trans ((Nat.shiftLeft_zero).symm.trans (Nat.or_zero _).symm)
  | shift10 =>
    have h0 : (readValue shift10 bytes).1 = bits (u32FromSlice bytes) 10 12 := field_eq _ 10 12
    rw [h0]
    exact (Nat.mod_mod _ _).trans ((Nat.shiftLeft_zero).symm.trans (Nat.or_zero _).symm)
  | branch26 =>
    have hlt := @gather_lt (format branch26).segments 26 (by decide) (u32FromSlice bytes)
    have hread := signed_mod (k := 6) (by decide) hlt
    rw [← gather_branch26] at hread
    exact hread.trans (gather_branch26 _)
  | branch21 =>
    have hlt := @gather_lt (format branch21).segments 21 (by decide) (u32FromSlice bytes)
    have hread := signed_mod (k := 11) (by decide) hlt
    rw [← gather_branch21] at hread
    exact hread.trans (gather_branch21 _)

end LoongArch64Instruction

namespace AArch64Instruction

/-- The immediates of the manual. -/
def format : AArch64Instruction → Format
  | adr => ⟨4, 0x9f00001f, [⟨0, 29, 2⟩, ⟨2, 5, 19⟩], 0, 21⟩
  | movkz => ⟨4, 0xffe0001f, [⟨0, 5, 16⟩], 0, 16⟩
  | movnz => ⟨4, 0x0060001f, [⟨0, 5, 16⟩], 0, 16⟩
  | ldr => ⟨4, 0xff00001f, [⟨0, 5, 19⟩], 0, 19⟩
  | ldrRegister => ⟨4, 0xffc003ff, [⟨0, 10, 12⟩], 0, 12⟩
  | add => ⟨4, 0xffc003ff, [⟨0, 10, 12⟩], 0, 12⟩
  | ldSt => ⟨4, 0xffc003ff, [⟨0, 10, 12⟩], 0, 12⟩
  | tstBr => ⟨4, 0xfff8001f, [⟨0, 5, 14⟩], 0, 14⟩
  | bcond => ⟨4, 0xff00001f, [⟨0, 5, 19⟩], 0, 19⟩
  | jumpCall => ⟨4, 0xfc000000, [⟨0, 0, 26⟩], 0, 26⟩
  | machOLow12 => ⟨4, 0xffc003ff, [⟨0, 10, 12⟩], 0, 12⟩

theorem format_ok (insn : AArch64Instruction) : insn.format.Ok := by
  cases insn <;> decide

/-- Whether the value is put into the word and nothing else is done to it. -/
def plain : AArch64Instruction → Bool
  | movnz | machOLow12 => false
  | _ => true

/-- A value of 21 bits has no bits above. -/
theorem adr_high {v : Nat} (hv : v < 2 ^ 21) :
    extractBitRange v 2 32 = extractBitRange v 2 21 := by
  have hlt : v >>> 2 < 2 ^ 19 := by
    rw [Nat.shiftRight_eq_div_pow]
    omega
  rw [extractBitRange_eq (by decide), extractBitRange_eq (by decide), bits, bits,
    Nat.mod_eq_of_lt (Nat.lt_of_lt_of_le hlt (by decide)), Nat.mod_eq_of_lt hlt]

/-- The two parts of `adr`, read back. -/
theorem adr_read (w : Nat) :
    (lowBits (w >>> 29) 2 ||| shl64 (lowBitsSigned (w >>> 5) 19) 2) % 2 ^ 21
      = gather (format adr).segments w := by
  have hlow : lowBits (w >>> 29) 2 = bits w 29 2 := field_eq w 29 2
  have hhigh : shl64 (lowBitsSigned (w >>> 5) 19) 2 % 2 ^ 21 = bits w 5 19 <<< 2 := by
    have hcut : shl64 (lowBitsSigned (w >>> 5) 19) 2 % 2 ^ (19 + 2)
        = lowBitsSigned (w >>> 5) 19 <<< 2 % 2 ^ (19 + 2) :=
      Nat.mod_mod_of_dvd _ (pow_dvd_pow 2 (by decide))
    have hbits : bits (lowBitsSigned (w >>> 5) 19) 0 19 = bits w 5 19 :=
      lowBitsSigned_mod (by decide) (by decide) _
    exact hcut.trans ((shl_mod _ 2 19).trans (by rw [hbits]))
  have hsmall : bits w 29 2 % 2 ^ 21 = bits w 29 2 := by
    have hmod := @bits_shl_mod 2 0 21 (by decide) w 29
    rwa [Nat.shiftLeft_zero] at hmod
  rw [Nat.or_mod_two_pow, hlow, hhigh, hsmall]
  simp only [gather, format, scatter, List.map, Segment.swap, foldr, Nat.or_zero,
    Nat.shiftLeft_zero]

/-- A value that is put into one segment. -/
theorem wordOf_one {v k len : Nat} (hle : len + k ≤ 32) (hv : v < 2 ^ len) (dest : Bytes)
    (hlen : 4 ≤ dest.length) :
    wordOf 4 (orFromSlice dest (leBytes 4 (shl32 (asU32 v) k)))
      = wordOf 4 dest ||| scatter [⟨0, k, len⟩] v := by
  have hmask : shl32 (asU32 v) k = scatter [⟨0, k, len⟩] v :=
    (shl32_asU32 hle hv).trans (Nat.or_zero _).symm
  have hlt : shl32 (asU32 v) k < 2 ^ (8 * 4) := Nat.mod_lt _ (Nat.two_pow_pos _)
  rw [wordOf_orFromSlice hlt hlen, hmask]

variable {insn : AArch64Instruction}

/-- **The word after a plain format was written**: nothing is cleared. -/
theorem wordOf_writeToValue (h : insn.plain = true) {v : Nat}
    (hv : v < 2 ^ insn.format.width) (negative : Bool) {dest : Bytes}
    (hlen : insn.format.size ≤ dest.length) :
    wordOf insn.format.size (insn.writeToValue v negative dest)
      = wordOf insn.format.size dest ||| scatter insn.format.segments v := by
  have hlt := Format.scatter_lt (format_ok insn).2.1 v
  cases insn with
  | movnz | machOLow12 => cases h
  | adr =>
    have hmask : shl32 (asU32 (extractBitRange v 0 2)) 29
        ||| shl32 (asU32 (extractBitRange v 2 32)) 5 = scatter (format adr).segments v := by
      rw [adr_high hv]
      simp (disch := decide) only [extractBitRange_eq, asU32_bits, shl32_bits, format, scatter,
        foldr, Nat.or_zero, Nat.reduceSub]
    rw [← hmask] at hlt ⊢
    exact wordOf_orFromSlice hlt hlen
  | movkz => exact @wordOf_one v 5 16 (by decide) hv dest hlen
  | ldr | bcond => exact @wordOf_one v 5 19 (by decide) hv dest hlen
  | tstBr => exact @wordOf_one v 5 14 (by decide) hv dest hlen
  | ldrRegister | add | ldSt => exact @wordOf_one v 10 12 (by decide) hv dest hlen
  | jumpCall =>
    have hmask : asU32 v = scatter (format jumpCall).segments v := by
      have hshl := @shl32_asU32 v 0 26 (by decide) hv
      have hmod : shl32 (asU32 v) 0 = asU32 v := Nat.mod_mod _ _
      rw [hmod] at hshl
      exact hshl.trans (Nat.or_zero _).symm
    rw [← hmask] at hlt ⊢
    exact wordOf_orFromSlice hlt hlen

/-- **What is read in a plain format**, up to the sign. -/
theorem readValue_mod (h : insn.plain = true) (bytes : Bytes) :
    ∃ r, insn.readValue bytes = some r ∧ r.1 % 2 ^ insn.format.width
      = gather insn.format.segments (wordOf insn.format.size bytes) := by
  have hone : ∀ (w k : Nat) {len : Nat},
      bits w k len = gather [⟨0, k, len⟩] w := by
    intro w k len
    exact Nat.shiftLeft_zero.symm.trans (Nat.or_zero _).symm
  have hsigned : ∀ (w k : Nat) {len : Nat}, len ≤ 64 → 0 < len →
      lowBitsSigned (w >>> k) len % 2 ^ len = gather [⟨0, k, len⟩] w := by
    intro w k len hle hpos
    exact (lowBitsSigned_mod hle hpos _).trans (hone w k)
  have hlow : ∀ (w k : Nat) {len : Nat},
      lowBits (w >>> k) len % 2 ^ len = gather [⟨0, k, len⟩] w := by
    intro w k len
    have heq : lowBits (w >>> k) len = bits w k len := field_eq w k len
    rw [heq, ← hone]
    exact Nat.mod_mod _ _
  cases insn with
  | movnz | machOLow12 => cases h
  | adr => exact ⟨_, rfl, adr_read _⟩
  | movkz | ldr | bcond | tstBr =>
    exact ⟨_, rfl, hsigned (u32FromSlice bytes) 5 (by decide) (by decide)⟩
  | ldSt => exact ⟨_, rfl, hsigned (u32FromSlice bytes) 10 (by decide) (by decide)⟩
  | ldrRegister | add => exact ⟨_, rfl, hlow (u32FromSlice bytes) 10⟩
  | jumpCall => exact ⟨_, rfl, hsigned (u32FromSlice bytes) 0 (by decide) (by decide)⟩

end AArch64Instruction

end Srs.Relocation
