/-
# RISC-V relaxation

`elf_riscv64.rs` and `linker-utils/src/riscv64.rs`: the scan that decides which bytes of an
executable section are deleted (`collectRelaxationDeltas`), and what the writer makes of a
relocation when they are gone (`newRelaxation`).  The two sides share nothing but the deltas: the
writer looks at the bytes again.

Offsets, sizes and addresses are numbers, distances are integers; the difference of two addresses
and the sum of an address with an addend are those of 64 bits.
-/
import Srs.Relaxation.Deltas
import Srs.Lib.Bytes

namespace Srs.Relaxation

open Deletions

/-! ## 1. Relocations and instructions -/

/-- The relocation types that relaxation looks at. -/
inductive RelocationType where
  | align
  | call
  | callPlt
  | hi20
  | lo12I
  | lo12S
  | relax
  | other (rType : Nat)
  deriving DecidableEq

structure Rela where
  offset : Nat
  rawType : RelocationType
  symbol : Option Nat
  addend : Int
  deriving DecidableEq

/-- `value as u64` of an `i64`. -/
def asU64 (value : Int) : Nat := (value % 2 ^ 64).toNat

/-- `u64::next_power_of_two` -/
def nextPowerOfTwo (n : Nat) : Nat := if n ≤ 1 then 1 else 2 ^ (Nat.log2 (n - 1) + 1)

/-- `u64::next_multiple_of` -/
def nextMultipleOf (n m : Nat) : Nat := (n + (m - 1)) / m * m

/-- `u32::from_le_bytes` of four bytes. -/
def u32FromLeBytes : Bytes → UInt32
  | [a, b, c, d] =>
    a.toUInt32 ||| (b.toUInt32 <<< 8) ||| (c.toUInt32 <<< 16) ||| (d.toUInt32 <<< 24)
  | _ => 0

/-- The word at an offset. -/
def wordAt (bytes : Bytes) (offset : Nat) : UInt32 := u32FromLeBytes ((bytes.drop offset).take 4)

/-- The destination register of an instruction. -/
def rdOf (word : UInt32) : UInt32 := (word >>> 7) &&& 0x1f

/-- The first source register of an instruction. -/
def rs1Of (word : UInt32) : UInt32 := (word >>> 15) &&& 0x1f

/-- `JAL_RANGE.contains(&distance)`: a signed immediate of 21 bits. -/
def distanceFitsJal (distance : Int) : Bool := -(2 ^ 20) ≤ distance && distance ≤ 2 ^ 20 - 1

/-- `value.wrapping_add(0x800) >> 12` -/
def hi20Of (value : Nat) : Nat := (value + 0x800) % 2 ^ 64 / 2 ^ 12

def hi20IsZero (value : Nat) : Bool := hi20Of value % 2 ^ 20 = 0

/-- The low 6 bits of the high part, sign-extended. -/
def as6bit (hi20 : Nat) : Int := if hi20 % 64 < 32 then (hi20 % 64 : Nat) else (hi20 % 64 : Nat) - 64

def hi20FitsClui (value : Nat) : Bool := as6bit (hi20Of value) = hi20Of value && hi20Of value ≠ 0

def rdValidForClui (rd : UInt32) : Bool := rd ≠ 0 && rd ≠ 2

/-! ## 2. The scan -/

structure RelaxSymbolInfo where
  outputAddress : Nat
  isInterposable : Bool
  deriving DecidableEq

/-- What the scan of a section is given. -/
structure ScanInput where
  sectionOutputAddress : Nat
  sectionBytes : Bytes
  existingDeltas : Option SectionRelaxDeltas
  resolveSymbol : Nat → Option RelaxSymbolInfo

/-- `existing_deltas.is_some_and(|d| d.has_delta_at(offset))` -/
def ScanInput.hasDeltaAt (env : ScanInput) (offset : Nat) : Bool :=
  match env.existingDeltas with
  | some d => d.hasDeltaAt offset
  | none => false

/-- The bytes deleted in earlier passes, strictly before an offset. -/
def ScanInput.existingCum (env : ScanInput) (inputOffset : Nat) : Nat :=
  match env.existingDeltas with
  | some d => d.deletedBefore inputOffset
  | none => 0

/-- The variables of the scan. -/
structure ScanState where
  rawDeltas : List (Nat × Nat)
  minUnrelaxedMargin : Option Nat
  prevCall : Option (Nat × Nat)
  prevHi20 : Option (Nat × Nat × Int)
  newCumulativeDelta : Nat
  deriving DecidableEq

namespace ScanState

def start : ScanState := ⟨[], none, none, none, 0⟩

/-- Forgets the call or the `lui` seen last. -/
def forget (st : ScanState) : ScanState := { st with prevCall := none, prevHi20 := none }

def push (st : ScanState) (offset bytes : Nat) : ScanState :=
  { st with
    rawDeltas := st.rawDeltas ++ [(offset, bytes)]
    newCumulativeDelta := st.newCumulativeDelta + bytes }

/-- A candidate that was not relaxed, and how far it is from that. -/
def unrelaxed (st : ScanState) (margin : Nat) : ScanState :=
  { st with minUnrelaxedMargin := some (match st.minUnrelaxedMargin with
      | none => margin
      | some m => min m margin) }

end ScanState

/-- `target as i64 - place as i64` -/
def distance (target place : Nat) : Int := ((target : Int) - place).bmod (2 ^ 64)

/-- The distance the scan reckons with. -/
def callDistance (env : ScanInput) (info : RelaxSymbolInfo) (callOffset : Nat) : Int :=
  distance info.outputAddress (env.sectionOutputAddress + callOffset)

/-- The `R_RISCV_ALIGN` arm: keeps as many of the NOPs as the alignment needs. -/
def scanAlign (env : ScanInput) (st : ScanState) (rel : Rela) : ScanState :=
  let addend := asU64 rel.addend
  let inputOffset := rel.offset
  if addend = 0 || env.hasDeltaAt inputOffset then st.forget
  else
    let outputOffset := inputOffset - env.existingCum inputOffset - st.newCumulativeDelta
    let p := env.sectionOutputAddress + outputOffset
    let alignment := nextPowerOfTwo addend
    let desired := nextMultipleOf p alignment
    let actual := p + addend
    if actual > desired then (st.push inputOffset ((actual - desired) % 2 ^ 32)).forget
    else st.forget

/-- The `R_RISCV_RELAX` arm after a call. -/
def scanCall (env : ScanInput) (st : ScanState) (callOffset symIdx : Nat) : ScanState :=
  match env.resolveSymbol symIdx with
  | some info =>
    if info.isInterposable then st
    else
      let d := callDistance env info callOffset
      if distanceFitsJal d then st.push (callOffset + 4) 4
      else st.unrelaxed (d.natAbs - (2 ^ 20 - 1))
  | none => st

/-- The margin of a `lui` that stays as it is. -/
def hi20Margin (value : Nat) : Nat :=
  if 31 < hi20Of value then (hi20Of value - 31) * 0x1000 else 0x1000

/-- The `R_RISCV_RELAX` arm after a `lui`. -/
def scanHi20 (env : ScanInput) (st : ScanState) (hi20Offset : Nat) (addend : Int)
    (info : RelaxSymbolInfo) : ScanState :=
  if hi20Offset + 4 ≤ env.sectionBytes.length then
    let rd := rdOf (wordAt env.sectionBytes hi20Offset)
    let value := asU64 ((info.outputAddress : Int) + addend)
    if hi20IsZero value then st.push hi20Offset 4
    else if rdValidForClui rd then
      if hi20FitsClui value then st.push (hi20Offset + 2) 2
      else st.unrelaxed (hi20Margin value)
    else st
  else st

/-- Whether a call at the place of a `R_RISCV_RELAX` can still be relaxed. -/
def callPending (env : ScanInput) (rel : Rela) (call : Nat × Nat) : Bool :=
  rel.offset = call.1 && !env.hasDeltaAt (call.1 + 4)

/-- The same for a `lui`. -/
def hi20Pending (env : ScanInput) (rel : Rela) (hi20 : Nat × Nat × Int) : Bool :=
  rel.offset = hi20.1 && !(env.hasDeltaAt hi20.1 || env.hasDeltaAt (hi20.1 + 2))

/-- The `R_RISCV_RELAX` arm. -/
def scanRelax (env : ScanInput) (st : ScanState) (rel : Rela) : ScanState :=
  match st.prevCall.filter (callPending env rel) with
  | some (callOffset, symIdx) => (scanCall env st callOffset symIdx).forget
  | none =>
    match st.prevHi20.filter (hi20Pending env rel) with
    | some (hi20Offset, symIdx, addend) =>
      match env.resolveSymbol symIdx with
      | some info =>
        if info.isInterposable then st.forget else (scanHi20 env st hi20Offset addend info).forget
      | none => st.forget
    | none => st.forget

def scanStep (env : ScanInput) (st : ScanState) (rel : Rela) : ScanState :=
  match rel.rawType with
  | .align => scanAlign env st rel
  | .call | .callPlt =>
    { st with prevCall := rel.symbol.map fun symIdx => (rel.offset, symIdx), prevHi20 := none }
  | .hi20 =>
    { st with
      prevHi20 := rel.symbol.map fun symIdx => (rel.offset, symIdx, rel.addend)
      prevCall := none }
  | .relax => scanRelax env st rel
  | .lo12I | .lo12S | .other _ => st.forget

def scan (env : ScanInput) (relocations : List Rela) : ScanState :=
  relocations.foldl (scanStep env) .start

/-- `collect_relaxation_deltas`: the deletions, and the margin of the candidate that is closest to
being relaxed. -/
def collectRelaxationDeltas (env : ScanInput) (relocations : List Rela) :
    List (Nat × Nat) × Option Nat :=
  let st := scan env relocations
  (st.rawDeltas, st.minUnrelaxedMargin)

/-- What a pass makes of the deltas of a section. -/
def passDeltas (env : ScanInput) (relocations : List Rela) : Option SectionRelaxDeltas :=
  let rawDeltas := (collectRelaxationDeltas env relocations).1
  if rawDeltas = [] then env.existingDeltas
  else
    match env.existingDeltas with
    | some existing => some (existing.mergeAdditional rawDeltas)
    | none => some (.new rawDeltas)

/-! ## 3. The writer -/

/-- The bytes of a section in the output: the writer copies what is between the deletions. -/
def writtenBytes (deltas : Option SectionRelaxDeltas) (inputData : Bytes) : Bytes :=
  match deltas with
  | some d => cut inputData 0 d.raw
  | none => inputData

/-- Whether the `jalr` after the `auipc` at `offset` is gone, to judge by the bytes. -/
def isJalrDeleted (sectionBytes : Bytes) (offset : Nat) : Bool :=
  if offset + 8 > sectionBytes.length then true
  else
    let auipcWord := wordAt sectionBytes offset
    let nextWord := wordAt sectionBytes (offset + 4)
    !((nextWord &&& 0x7f) == 0x67 && rs1Of nextWord == rdOf auipcWord)

inductive RelaxationKind where
  | noOp
  | replaceWithNop
  | callToJal
  | hi20ToCLui
  | hi20Delete
  | lo12Rs1ToZero
  deriving DecidableEq

/-- The relocation that is applied after the rewrite. -/
inductive RelInfo where
  /-- that of the relocation's own type -/
  | ofType (rawType : RelocationType)
  /-- the same, relative to the place -/
  | relative (rawType : RelocationType)
  | jal
  | none
  | clui
  deriving DecidableEq

structure NewRelaxation where
  kind : RelaxationKind
  relInfo : RelInfo
  mandatory : Bool
  deriving DecidableEq

/-- What else the writer knows of a relocation. -/
structure WriterInfo where
  interposable : Bool
  nonZeroAddress : Bool
  staticExecutable : Bool
  executable : Bool
  deriving DecidableEq

/-- `ElfRiscV64::new_relaxation` -/
def newRelaxation (rawType : RelocationType) (sectionBytes : Bytes) (offsetInSection : Nat)
    (info : WriterInfo) (relaxDeltas : Option SectionRelaxDeltas) : Option NewRelaxation :=
  if !info.executable then none
  else
    match rawType with
    | .call | .callPlt =>
      if info.interposable then none
      else if info.nonZeroAddress then
        if isJalrDeleted sectionBytes offsetInSection then
          some ⟨.callToJal, .jal, info.staticExecutable⟩
        else some ⟨.noOp, .relative rawType, info.staticExecutable⟩
      else some ⟨.replaceWithNop, .none, info.staticExecutable⟩
    | .hi20 =>
      match relaxDeltas with
      | some deltas =>
        let inputOffset := deltas.outputToInputOffset offsetInSection
        if deltas.hasDeltaAt inputOffset then some ⟨.hi20Delete, .none, false⟩
        else if deltas.hasDeltaAt (inputOffset + 2) then some ⟨.hi20ToCLui, .clui, false⟩
        else none
      | none => none
    | .lo12I | .lo12S =>
      match relaxDeltas with
      | some deltas =>
        let inputOffset := deltas.outputToInputOffset offsetInSection
        if inputOffset ≥ 4 && deltas.deltaBytesAt (inputOffset - 4) == 4 then
          if offsetInSection + 4 ≤ sectionBytes.length then
            let word := wordAt sectionBytes offsetInSection
            if rdOf word == rs1Of word then some ⟨.lo12Rs1ToZero, .ofType rawType, false⟩ else none
          else none
        else none
      | none => none
    | _ => none

/-- What the writer does at a relocation: `new_relaxation` at its place in the output. -/
def writerDecision (bytes : Bytes) (deltas : Option SectionRelaxDeltas) (info : WriterInfo)
    (rel : Rela) : Option NewRelaxation :=
  newRelaxation rel.rawType (writtenBytes deltas bytes) (optInputToOutput deltas rel.offset) info
    deltas

end Srs.Relaxation
