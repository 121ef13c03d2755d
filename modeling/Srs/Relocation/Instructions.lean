/-
# Immediates of instructions

`linker-utils`: how the value of a relocation is put into an instruction (`writeToValue`) and how
it is read from one (`readValue`), for the instruction formats of AArch64, RISC-V and
LoongArch64.  A buffer is a list of bytes; `u16`, `u32` and `u64` values are numbers, with the
operations of the type that wrap around written out.
-/
import Srs.Lib.BitFields
import Srs.Lib.LeBytes
import Srs.Relaxation.RiscV

namespace Srs.Relocation

open BitFields LeBytes
open Srs.Relaxation (asU64)

/-! ## 1. Machine words -/

def asU16 (x : Nat) : Nat := x % 2 ^ 16

def asU32 (x : Nat) : Nat := x % 2 ^ 32

/-- `x << k` of a `u32`. -/
def shl32 (x k : Nat) : Nat := x <<< k % 2 ^ 32

/-- `x << k` of a `u64`. -/
def shl64 (x k : Nat) : Nat := x <<< k % 2 ^ 64

/-- `u64::wrapping_add` -/
def wrappingAdd (x y : Nat) : Nat := (x + y) % 2 ^ 64

/-- `u64::wrapping_sub` -/
def wrappingSub (x y : Nat) : Nat := (x + (2 ^ 64 - y)) % 2 ^ 64

/-- `!x` of a `u64`. -/
def not64 (x : Nat) : Nat := 2 ^ 64 - 1 - x

/-- `((x as i32) << k) >> k`: the sign is in bit `31 - k`. -/
def signExtend32 (x k : Nat) : Int := ((x * 2 ^ k : Nat) : Int).bmod (2 ^ 32) / 2 ^ k

/-- `extract_bit_range` -/
def extractBitRange (v start stop : Nat) : Nat :=
  if start = 0 ∧ stop = 64 then v else (v >>> start) &&& (2 ^ (stop - start) - 1)

/-- `extract_bit` -/
def extractBit (v position : Nat) : Nat := extractBitRange v position (position + 1)

/-- `low_bits` -/
def lowBits (v numBits : Nat) : Nat := v &&& (2 ^ numBits - 1)

/-- `sign_extend` -/
def signExtend (v signBit : Nat) : Nat :=
  if v &&& 2 ^ signBit ≠ 0 then v ||| not64 (2 <<< signBit - 1) else v

/-- `low_bits_signed` -/
def lowBitsSigned (v numBits : Nat) : Nat := signExtend (lowBits v numBits) (numBits - 1)

/-! ## 2. Buffers -/

/-- `or_from_slice` -/
def orFromSlice (dest mask : Bytes) : Bytes := overlay (· ||| ·) dest mask

/-- `and_from_slice` -/
def andFromSlice (dest mask : Bytes) : Bytes := overlay (· &&& ·) dest mask

/-- `u16::from_le_bytes` of the first two bytes. -/
def u16FromSlice (data : Bytes) : Nat := wordOf 2 data

def u32FromSlice (data : Bytes) : Nat := wordOf 4 data

def u64FromSlice (data : Bytes) : Nat := wordOf 8 data

/-- Clears the bits that are not in `keep`, and sets those of `mask`, in the first `n` bytes. -/
def putField (n keep mask : Nat) (dest : Bytes) : Bytes :=
  orFromSlice (andFromSlice dest (leBytes n keep)) (leBytes n mask)

/-- A value that was sign-extended, as it is returned. -/
def signed (x : Int) : Nat × Bool := (asU64 x, x < 0)

/-! ## 3. RISC-V -/

inductive RiscVInstruction where
  | uiType
  | uType
  | iType
  | sType
  | bType
  | jType
  | cbType
  | cjType
  | cluiType
  deriving DecidableEq

namespace RiscVInstruction

def utypeImmediateMask : Nat := 0x00000fff
def itypeImmediateMask : Nat := 0x000fffff
def stypeImmediateMask : Nat := 0x01fff07f
def btypeImmediateMask : Nat := 0x01fff07f
def jtypeImmediateMask : Nat := 0x00000fff
def cbtypeImmediateMask : Nat := 0xe383
def cjtypeImmediateMask : Nat := 0xe003
def cluitypeImmediateMask : Nat := 0xef83

/-- The bits of a value in an instruction word: all formats but the pair. -/
def mask (v : Nat) : RiscVInstruction → Nat
  | uiType => 0
  | uType => shl32 (asU32 (extractBitRange (wrappingAdd v 0x800) 12 32)) 12
  | iType => asU32 (shl64 v 20)
  | sType => asU32 (shl64 (extractBitRange v 0 5) 7 ||| shl64 (extractBitRange v 5 12) 25)
  | bType => asU32 (shl64 (extractBit v 11) 7 ||| shl64 (extractBitRange v 1 5) 8
      ||| shl64 (extractBitRange v 5 11) 25 ||| shl64 (extractBit v 12) 31)
  | jType => asU32 (shl64 (extractBitRange v 12 20) 12 ||| shl64 (extractBit v 11) 20
      ||| shl64 (extractBitRange v 1 11) 21 ||| shl64 (extractBit v 20) 31)
  | cbType => asU16 (shl64 (extractBit v 5) 2 ||| shl64 (extractBitRange v 1 3) 3
      ||| shl64 (extractBitRange v 6 8) 5 ||| shl64 (extractBitRange v 3 5) 10
      ||| shl64 (extractBit v 8) 12)
  | cjType => asU16 (shl64 (extractBit v 5) 2 ||| shl64 (extractBitRange v 1 4) 3
      ||| shl64 (extractBit v 7) 6 ||| shl64 (extractBit v 6) 7 ||| shl64 (extractBit v 10) 8
      ||| shl64 (extractBitRange v 8 10) 9 ||| shl64 (extractBit v 4) 11
      ||| shl64 (extractBit v 11) 12)
  | cluiType =>
    let hi20 := wrappingAdd v 0x800 >>> 12
    asU16 (shl64 (hi20 &&& 0x1f) 2 ||| shl64 ((hi20 >>> 5) &&& 1) 12)

/-- `RiscVInstruction::write_to_value` -/
def writeToValue (insn : RiscVInstruction) (v : Nat) (dest : Bytes) : Bytes :=
  match insn with
  | uiType =>
    putField 4 utypeImmediateMask (mask v uType) (dest.take 4)
      ++ putField 4 itypeImmediateMask (mask v iType) (dest.drop 4)
  | uType => putField 4 utypeImmediateMask (mask v uType) dest
  | iType => putField 4 itypeImmediateMask (mask v iType) dest
  | sType => putField 4 stypeImmediateMask (mask v sType) dest
  | bType => putField 4 btypeImmediateMask (mask v bType) dest
  | jType => putField 4 jtypeImmediateMask (mask v jType) dest
  | cbType => putField 2 cbtypeImmediateMask (mask v cbType) dest
  | cjType => putField 2 cjtypeImmediateMask (mask v cjType) dest
  | cluiType => putField 2 cluitypeImmediateMask (mask v cluiType) dest

def readUType (bytes : Bytes) : Nat × Bool :=
  let imm := (u32FromSlice bytes >>> 12) &&& 0xfffff
  (wrappingSub (asU64 (signExtend32 imm 12)) 0x800, false)

def readIType (bytes : Bytes) : Nat × Bool :=
  signed (signExtend32 ((u32FromSlice bytes >>> 20) &&& 0xfff) 20)

/-- `RiscVInstruction::read_value` -/
def readValue (insn : RiscVInstruction) (bytes : Bytes) : Nat × Bool :=
  match insn with
  | uiType =>
    let hi := (readUType (bytes.take 4)).1
    let lo := (readIType (bytes.drop 4)).1
    (shl64 hi 12 ||| lo, false)
  | uType => readUType bytes
  | iType => readIType bytes
  | sType =>
    let value := u32FromSlice bytes
    let immLow := (value >>> 7) &&& 0x1f
    let immHigh := (value >>> 25) &&& 0x7f
    signed (signExtend32 (shl32 immHigh 5 ||| immLow) 20)
  | bType =>
    let value := u32FromSlice bytes
    let imm11 := (value >>> 7) &&& 0x1
    let imm1To4 := (value >>> 8) &&& 0xf
    let imm5To10 := (value >>> 25) &&& 0x3f
    let imm12 := (value >>> 31) &&& 0x1
    signed (signExtend32
      (shl32 imm12 12 ||| shl32 imm11 11 ||| shl32 imm5To10 5 ||| shl32 imm1To4 1) 19)
  | jType =>
    let value := u32FromSlice bytes
    let imm12To19 := (value >>> 12) &&& 0xff
    let imm11 := (value >>> 20) &&& 0x1
    let imm1To10 := (value >>> 21) &&& 0x3ff
    let imm20 := (value >>> 31) &&& 0x1
    signed (signExtend32
      (shl32 imm20 20 ||| shl32 imm12To19 12 ||| shl32 imm11 11 ||| shl32 imm1To10 1) 11)
  | cbType =>
    let value := u16FromSlice bytes
    let imm5 := (value >>> 2) &&& 0x1
    let imm1To2 := (value >>> 3) &&& 0x3
    let imm6To7 := (value >>> 5) &&& 0x3
    let imm3To4 := (value >>> 10) &&& 0x3
    let imm8 := (value >>> 12) &&& 0x1
    signed (signExtend32 (imm8 <<< 8 ||| imm6To7 <<< 6 ||| imm5 <<< 5 ||| imm3To4 <<< 3
      ||| imm1To2 <<< 1) 23)
  | cjType =>
    let value := u16FromSlice bytes
    let imm5 := (value >>> 2) &&& 0x1
    let imm1To3 := (value >>> 3) &&& 0x7
    let imm7 := (value >>> 6) &&& 0x1
    let imm6 := (value >>> 7) &&& 0x1
    let imm10 := (value >>> 8) &&& 0x1
    let imm8To9 := (value >>> 9) &&& 0x3
    let imm4 := (value >>> 11) &&& 0x1
    let imm11 := (value >>> 12) &&& 0x1
    signed (signExtend32 (imm11 <<< 11 ||| imm10 <<< 10 ||| imm8To9 <<< 8 ||| imm7 <<< 7
      ||| imm6 <<< 6 ||| imm5 <<< 5 ||| imm4 <<< 4 ||| imm1To3 <<< 1) 20)
  | cluiType =>
    let value := u16FromSlice bytes
    let nzimm4To0 := (value >>> 2) &&& 0x1f
    let nzimm5 := (value >>> 12) &&& 0x1
    let hi20 := signExtend32 (nzimm5 <<< 5 ||| nzimm4To0) 26
    (wrappingSub (shl64 (asU64 hi20) 12) 0x800, hi20 < 0)

end RiscVInstruction

/-! ## 4. LoongArch64 -/

inductive LoongArch64Instruction where
  | shift5
  | shift10
  | branch21
  | branch26
  | call30
  | call36
  deriving DecidableEq

namespace LoongArch64Instruction

/-- `LoongArch64Instruction::write_to_value` -/
def writeToValue (insn : LoongArch64Instruction) (v : Nat) (dest : Bytes) : Bytes :=
  match insn with
  | shift5 => putField 4 0xfe00001f (asU32 (shl64 v 5)) dest
  | shift10 => putField 4 0xffc003ff (asU32 (shl64 v 10)) dest
  | branch26 => putField 4 0xfc000000 (asU32 (shl64 (v &&& 0xffff) 10 ||| v >>> 16)) dest
  | branch21 => putField 4 0xfc0003e0 (asU32 (shl64 (v &&& 0xffff) 10 ||| v >>> 16)) dest
  | call30 =>
    putField 8 (0xfff803ff <<< 32 ||| 0xfe00001f)
      (shl64 (v &&& 0x1ff) (32 + 10) ||| shl64 (v &&& not64 0x1ff) 5) dest
  | call36 =>
    putField 8 (0xfc0003ff <<< 32 ||| 0xfe00001f)
      (shl64 (v &&& 0xffff) (32 + 10) ||| shl64 ((v + 0x8000) >>> 16) 5) dest

/-- `LoongArch64Instruction::read_value` -/
def readValue (insn : LoongArch64Instruction) (bytes : Bytes) : Nat × Bool :=
  match insn with
  | shift5 => ((u32FromSlice bytes >>> 5) &&& 0xfffff, false)
  | shift10 => ((u32FromSlice bytes >>> 10) &&& 0xfff, false)
  | branch26 =>
    let value := u32FromSlice bytes
    let lowPart := (value >>> 10) &&& 0xffff
    let highPart := value &&& 0x3ff
    signed (signExtend32 (shl32 highPart 16 ||| lowPart) 6)
  | branch21 =>
    let value := u32FromSlice bytes
    let lowPart := (value >>> 10) &&& 0xffff
    let highPart := value &&& 0x1f
    signed (signExtend32 (shl32 highPart 16 ||| lowPart) 11)
  | call30 =>
    let value := u64FromSlice bytes
    let insn1 := asU32 (value >>> 32)
    let insn2 := asU32 value
    let highPart := shl32 ((insn1 >>> 5) &&& 0x7ffff) 9
    let lowPart := (insn2 >>> 10) &&& 0x1ff
    (highPart ||| lowPart, false)
  | call36 =>
    let value := u64FromSlice bytes
    let insn1 := asU32 value
    let insn2 := asU32 (value >>> 32)
    let highPart := (insn1 >>> 5) &&& 0xfffff
    let lowPart := (insn2 >>> 10) &&& 0xffff
    ((wrappingSub (shl64 highPart 16) 0x8000 &&& 0xffffffff) ||| lowPart, false)

end LoongArch64Instruction

/-! ## 5. AArch64 -/

inductive AArch64Instruction where
  | adr
  | movkz
  | movnz
  | ldr
  | ldrRegister
  | add
  | ldSt
  | tstBr
  | bcond
  | jumpCall
  | machOLow12
  deriving DecidableEq

namespace AArch64Instruction

/-- The size of the access of a load or store, as a shift. -/
def machOScale (insn : Nat) : Nat :=
  if insn &&& 0x3b000000 = 0x39000000 then
    if insn >>> 30 = 0 ∧ insn &&& 0x04800000 = 0x04800000 then 4 else insn >>> 30
  else 0

/-- `AArch64Instruction::write_to_value` -/
def writeToValue (insn : AArch64Instruction) (v : Nat) (negative : Bool) (dest : Bytes) : Bytes :=
  match insn with
  | adr =>
    orFromSlice dest (leBytes 4 (shl32 (asU32 (extractBitRange v 0 2)) 29
      ||| shl32 (asU32 (extractBitRange v 2 32)) 5))
  | movkz => orFromSlice dest (leBytes 4 (shl32 (asU32 v) 5))
  | movnz =>
    let value := if negative then not64 v else v
    let opcode := if negative then 0x92800000 else 0xd2800000
    putField 4 0x0060001f (opcode ||| shl32 (asU32 (extractBitRange value 0 16)) 5) dest
  | ldr => orFromSlice dest (leBytes 4 (shl32 (asU32 v) 5))
  | ldrRegister => orFromSlice dest (leBytes 4 (shl32 (asU32 v) 10))
  | add => orFromSlice dest (leBytes 4 (shl32 (asU32 v) 10))
  | ldSt => orFromSlice dest (leBytes 4 (shl32 (asU32 v) 10))
  | tstBr => orFromSlice dest (leBytes 4 (shl32 (asU32 v) 5))
  | bcond => orFromSlice dest (leBytes 4 (shl32 (asU32 v) 5))
  | jumpCall => orFromSlice dest (leBytes 4 (asU32 v))
  | machOLow12 =>
    putField 4 0xffc003ff (shl32 (asU32 v >>> machOScale (u32FromSlice dest)) 10) dest

/-- `AArch64Instruction::read_value`; it panics for the format of Mach-O. -/
def readValue (insn : AArch64Instruction) (bytes : Bytes) : Option (Nat × Bool) :=
  let value := u32FromSlice bytes
  match insn with
  | adr => some (lowBits (value >>> 29) 2 ||| shl64 (lowBitsSigned (value >>> 5) 19) 2, false)
  | movkz => some (lowBitsSigned (value >>> 5) 16, false)
  | movnz =>
    let negative := value &&& 1 <<< 30 = 0
    let v := lowBits (value >>> 5) 16
    some (if negative then not64 v else v, negative)
  | ldr => some (lowBitsSigned (value >>> 5) 19, false)
  | ldrRegister => some (lowBits (value >>> 10) 12, false)
  | add => some (lowBits (value >>> 10) 12, false)
  | ldSt => some (lowBitsSigned (value >>> 10) 12, false)
  | tstBr => some (lowBitsSigned (value >>> 5) 14, false)
  | bcond => some (lowBitsSigned (value >>> 5) 19, false)
  | jumpCall => some (lowBitsSigned value 26, false)
  | machOLow12 => none

end AArch64Instruction

/-! ## 6. All of them -/

inductive RelocationInstruction where
  | aArch64 (insn : AArch64Instruction)
  | riscV (insn : RiscVInstruction)
  | loongArch64 (insn : LoongArch64Instruction)
  deriving DecidableEq

namespace RelocationInstruction

/-- `RelocationInstruction::write_to_value` -/
def writeToValue (insn : RelocationInstruction) (v : Nat) (negative : Bool) (dest : Bytes) :
    Bytes :=
  match insn with
  | aArch64 insn => insn.writeToValue v negative dest
  | riscV insn => insn.writeToValue v dest
  | loongArch64 insn => insn.writeToValue v dest

/-- `RelocationInstruction::read_value` -/
def readValue (insn : RelocationInstruction) (bytes : Bytes) : Option (Nat × Bool) :=
  match insn with
  | aArch64 insn => insn.readValue bytes
  | riscV insn => some (insn.readValue bytes)
  | loongArch64 insn => some (insn.readValue bytes)

end RelocationInstruction

end Srs.Relocation
