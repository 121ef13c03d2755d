/-
# Relaxation on x86-64

`newRelaxation` looks at the bytes around a relocation and says how the instruction there is
rewritten, and `RelaxationKind.apply` rewrites it.  Each kind of relocation looks at a window of its
own, and the bytes that are rewritten are often more than those that were looked at.

Subtractions and indices are checked (`Checked`): a violation is where the program panics.  An
offset plus a small number does not overflow where the sum is used, since the bytes looked at
before are inside the section.
-/
import Srs.Dynamic.Flags
import Srs.Lib.Bytes
import Srs.Lib.Checked

namespace Srs.X86Relaxation

open Buffers Checked Srs.Dynamic

/-! ## 1. Relocations and relaxations -/

/-- The relocation types that are looked at. -/
inductive RelocationType where
  | pc32
  | plt32
  | pltoff64
  | gotpcrel
  | gotpcrelx
  | rexGotpcrelx
  | code4Gotpcrelx
  | gottpoff
  | code4Gottpoff
  | code6Gottpoff
  | tlsgd
  | tlsld
  | gotpc32Tlsdesc
  | code4Gotpc32Tlsdesc
  | tlsdescCall
  /-- Any other type. -/
  | other (raw : UInt32)
  deriving DecidableEq

/-- The relocation types that a relaxation changes to. -/
inductive RelInfo where
  | none
  | abs32
  | pc32
  | plt32
  | tpoff32
  | gottpoff
  | gotoff64
  deriving DecidableEq

/-- How many bytes the relocation writes. -/
def RelInfo.size : RelInfo → Nat
  | none => 0
  | gotoff64 => 8
  | abs32 | pc32 | plt32 | tpoff32 | gottpoff => 4

inductive RelaxationKind where
  | movIndirectToLea
  | movIndirectToAbsolute
  | rexMovIndirectToAbsolute (instOffset : Nat)
  | rexAddIndirectToAbsolute (instOffset : Nat)
  | rexSubIndirectToAbsolute (instOffset : Nat)
  | rexCmpIndirectToAbsolute (instOffset : Nat)
  | callIndirectToRelative
  | jmpIndirectToRelative
  | noOp
  | tlsGdToLocalExec
  | tlsGdToLocalExecLarge
  | tlsLdToLocalExec
  | tlsLdToLocalExecNoPlt
  | tlsLdToLocalExec64
  | tlsGdToInitialExec
  | tlsDescToLocalExec (instOffset : Nat)
  | tlsDescToInitialExec
  | skipTlsDescCall
  deriving DecidableEq

structure Relaxation where
  kind : RelaxationKind
  relInfo : RelInfo
  mandatory : Bool
  deriving DecidableEq

/-! ## 2. Applying a relaxation -/

/-- What a relaxation changes. -/
structure Target where
  sectionBytes : Bytes
  offsetInSection : Nat
  addend : Int

/-- The byte so many places in front of an offset. -/
def byteBefore (bytes : Bytes) (offset back : Nat) : Except Violation UInt8 := do
  let i ← sub offset back
  get bytes i

def setByteBefore (bytes : Bytes) (offset back : Nat) (value : UInt8) : Except Violation Bytes := do
  let i ← sub offset back
  set bytes i value

/-- The bytes from so many places in front of an offset to so many after it. -/
def copyAround (bytes : Bytes) (offset back after : Nat) (code : Bytes) :
    Except Violation Bytes := do
  let start ← sub offset back
  copy bytes start (offset + after) code

/-- The register field of a ModRM byte. -/
def regField (modRm : UInt8) : UInt8 := (modRm >>> 3) &&& 0x7

/-- The REX byte with the bits of the register where those of the operand are. -/
def moveRexBits (instOffset : Nat) (rex : UInt8) : UInt8 :=
  if instOffset = 3 then (rex &&& ~~~(4 : UInt8)) ||| ((rex &&& 4) >>> 2)
  else if instOffset = 4 then (rex &&& ~~~(0x44 : UInt8)) ||| ((rex &&& 0x44) >>> 2)
  else rex

/-- The opcode and the ModRM byte of an instruction with an immediate operand. -/
def setOperation (bytes : Bytes) (offset : Nat) (opcode modRmBits : UInt8) :
    Except Violation Bytes := do
  let bytes ← setByteBefore bytes offset 2 opcode
  let modRm ← byteBefore bytes offset 1
  setByteBefore bytes offset 1 (regField modRm ||| modRmBits)

/-- What `mov`, `sub` and `cmp` with a REX prefix have in common. -/
def rexIndirectToAbsolute (instOffset : Nat) (opcode modRmBits : UInt8) (target : Target) :
    Except Violation Target := do
  let offset := target.offsetInSection
  let rex ← byteBefore target.sectionBytes offset 3
  let bytes ←
    if instOffset = 3 ∨ instOffset = 4 then
      setByteBefore target.sectionBytes offset 3 (moveRexBits instOffset rex)
    else .ok target.sectionBytes
  let bytes ← setOperation bytes offset opcode modRmBits
  .ok { target with sectionBytes := bytes, addend := 0 }

/-- The payload byte of an EVEX prefix, with the bits of the register where those of the operand
are. -/
def moveEvexBits (l5 : UInt8) : UInt8 :=
  let l5 := if l5 &&& 0x80 = 0 then (l5 ||| 0x80) &&& ~~~(0x20 : UInt8) else l5
  if l5 &&& 0x10 = 0 then l5 ||| 0x10 ||| 0x08 else l5

/-- `add` looks at its prefix only where it changes it, and may have an EVEX prefix. -/
def rexAddIndirectToAbsolute (instOffset : Nat) (target : Target) : Except Violation Target := do
  let offset := target.offsetInSection
  let bytes ←
    if instOffset = 3 ∨ instOffset = 4 then do
      let rex ← byteBefore target.sectionBytes offset 3
      setByteBefore target.sectionBytes offset 3 (moveRexBits instOffset rex)
    else if instOffset = 6 then do
      let l5 ← byteBefore target.sectionBytes offset 5
      setByteBefore target.sectionBytes offset 5 (moveEvexBits l5)
    else .ok target.sectionBytes
  let bytes ← setOperation bytes offset 0x81 0xc0
  .ok { target with sectionBytes := bytes, addend := 0 }

/-- A whole sequence of instructions, the relocation going further on. -/
def replaceCode (back after advance : Nat) (code : Bytes) (target : Target) :
    Except Violation Target := do
  let bytes ← copyAround target.sectionBytes target.offsetInSection back after code
  .ok { target with
    sectionBytes := bytes, offsetInSection := target.offsetInSection + advance }

/-- The REX and ModRM bytes of the instruction that a TLS descriptor is loaded with: bit 2 of the
one and the register of the other. -/
def tlsDescRegisters (target : Target) : Except Violation (UInt8 × UInt8) := do
  let rex ← byteBefore target.sectionBytes target.offsetInSection 3
  let modRm ← byteBefore target.sectionBytes target.offsetInSection 1
  .ok ((rex >>> 2) &&& 1, regField modRm)

/-- `RelaxationKind::apply` -/
def RelaxationKind.apply (target : Target) : RelaxationKind → Except Violation Target
  | movIndirectToLea => do
    let bytes ← setByteBefore target.sectionBytes target.offsetInSection 2 0x8d
    .ok { target with sectionBytes := bytes }
  | movIndirectToAbsolute => do
    let bytes ← setOperation target.sectionBytes target.offsetInSection 0xc7 0xc0
    .ok { target with sectionBytes := bytes, addend := 0 }
  | rexMovIndirectToAbsolute instOffset => rexIndirectToAbsolute instOffset 0xc7 0xc0 target
  | rexAddIndirectToAbsolute instOffset => X86Relaxation.rexAddIndirectToAbsolute instOffset target
  | rexSubIndirectToAbsolute instOffset => rexIndirectToAbsolute instOffset 0x81 0xe8 target
  | rexCmpIndirectToAbsolute instOffset => rexIndirectToAbsolute instOffset 0x81 0xf8 target
  | callIndirectToRelative => replaceCode 2 0 0 [0x67, 0xe8] target
  | jmpIndirectToRelative => do
    let bytes ← copyAround target.sectionBytes target.offsetInSection 2 4 [0xe9, 0, 0, 0, 0, 0x90]
    -- The instruction is one byte shorter.
    let offset ← sub target.offsetInSection 1
    .ok { target with sectionBytes := bytes, offsetInSection := offset }
  | tlsGdToLocalExec => do
    -- mov %fs:0,%rax; lea {offset}(%rax),%rax
    let target ← replaceCode 4 8 8
      [0x64, 0x48, 0x8b, 0x04, 0x25, 0, 0, 0, 0, 0x48, 0x8d, 0x80] target
    .ok { target with addend := 0 }
  | tlsGdToLocalExecLarge => do
    -- mov %fs:0,%rax; lea {offset}(%rax),%rax; nopw (%rax,%rax)
    let target ← replaceCode 3 19 9 [0x64, 0x48, 0x8b, 0x04, 0x25, 0, 0, 0, 0, 0x48, 0x8d, 0x80,
      0, 0, 0, 0, 0x66, 0x0f, 0x1f, 0x44, 0, 0] target
    .ok { target with addend := 0 }
  | tlsGdToInitialExec =>
    -- mov %fs:0,%rax; add *x,%rax
    replaceCode 4 8 8 [0x64, 0x48, 0x8b, 0x04, 0x25, 0, 0, 0, 0, 0x48, 0x03, 0x05] target
  | tlsLdToLocalExec =>
    -- mov %fs:0,%rax
    replaceCode 3 9 5 [0x66, 0x66, 0x66, 0x64, 0x48, 0x8b, 0x04, 0x25, 0, 0, 0, 0] target
  | tlsLdToLocalExecNoPlt =>
    replaceCode 3 10 5 [0x66, 0x66, 0x66, 0x66, 0x64, 0x48, 0x8b, 0x04, 0x25, 0, 0, 0, 0] target
  | tlsLdToLocalExec64 =>
    -- nopw (%rax,%rax); mov %fs:0,%rax
    replaceCode 3 19 15 [0x66, 0x66, 0x66, 0x66, 0x2e, 0x0f, 0x1f, 0x84, 0, 0, 0, 0, 0,
      0x64, 0x48, 0x8b, 0x04, 0x25, 0, 0, 0, 0] target
  | tlsDescToLocalExec instOffset => do
    let (rexR, reg) ← tlsDescRegisters target
    -- mov {offset},%{reg}
    if instOffset = 3 then do
      let target ← replaceCode 3 4 0
        [if rexR = 0 then 0x48 else 0x49, 0xc7, 0xc0 ||| reg, 0, 0, 0, 0] target
      .ok { target with addend := 0 }
    else if instOffset = 4 then do
      let target ← replaceCode 3 4 0
        [if rexR = 0 then 0x18 else 0x19, 0xc7, 0xc0 ||| reg, 0, 0, 0, 0] target
      .ok { target with addend := 0 }
    else .ok target
  | tlsDescToInitialExec => do
    let (rexR, reg) ← tlsDescRegisters target
    -- mov {GOT}(%rip),%{reg}
    replaceCode 3 4 0
      [if rexR = 0 then 0x48 else 0x4c, 0x8b, (0x05 : UInt8) ||| reg <<< 3, 0, 0, 0, 0] target
  | skipTlsDescCall => replaceCode 0 2 0 [0x66, 0x90] target
  | noOp => .ok target

/-! ## 3. Choosing a relaxation -/

/-- The arguments of `new_relaxation` that it reads. -/
structure Site where
  relocationKind : RelocationType
  sectionBytes : Bytes
  offsetInSection : Nat
  flags : ValueFlags
  outputKind : OutputKind
  /-- `section_flags.contains(shf::EXECINSTR)` -/
  executableSection : Bool

namespace Site

variable (site : Site)

/-- `is_absolute || is_absolute_address` -/
def isAbsolute : Bool :=
  (site.flags.absolute && ! site.flags.dynamic)
    || (site.flags.isAddress && ! site.outputKind.isRelocatable)

def interposable : Bool := site.flags.isInterposable

/-- `section_bytes.get(offset - back..offset - stop)`, an option of its own. -/
def codeBefore (back stop : Nat) : Except Violation (Option Bytes) := do
  let start ← sub site.offsetInSection back
  let stop ← sub site.offsetInSection stop
  .ok (slice site.sectionBytes start stop)

/-- `section_bytes.get(offset + start..offset + stop)` -/
def codeAfter (start stop : Nat) : Option Bytes :=
  slice site.sectionBytes (site.offsetInSection + start) (site.offsetInSection + stop)

/-- The guard that the two forms of an instruction share: a prefix of the longer one four bytes in
front of the offset, or three bytes there at all. -/
def prefixGuard (longer : Bool) : Except Violation Bool :=
  if longer = true ∧ 4 ≤ site.offsetInSection then do
    let first ← byteBefore site.sectionBytes site.offsetInSection 4
    .ok (first == 0xd5 || decide (3 ≤ site.offsetInSection))
  else .ok (decide (3 ≤ site.offsetInSection))

/-- A relaxation that a static executable cannot do without. -/
def relax (kind : RelaxationKind) (relInfo : RelInfo) : Option Relaxation :=
  some ⟨kind, relInfo, site.outputKind.isStaticExecutable⟩

/-- A relaxation that is only an optimisation. -/
def mayRelax (kind : RelaxationKind) (relInfo : RelInfo) : Option Relaxation :=
  some ⟨kind, relInfo, false⟩

/-- `R_X86_64_REX_GOTPCRELX` and `R_X86_64_CODE_4_GOTPCRELX`, after the guard -/
def rexGotpcrelxForm (instOffset : Nat) (b1 rex : UInt8) : Option Relaxation :=
  -- A REX prefix with W=1, R=0/1, X=0, B=0.
  if rex ≠ 0x48 ∧ rex ≠ 0x4c then none
  else if site.isAbsolute then
    if b1 = 0x8b then site.relax (.rexMovIndirectToAbsolute instOffset) .abs32
    else if b1 = 0x2b then site.relax (.rexSubIndirectToAbsolute instOffset) .abs32
    else if b1 = 0x3b then site.relax (.rexCmpIndirectToAbsolute instOffset) .abs32
    else none
  else if ! site.interposable ∧ b1 = 0x8b then site.relax .movIndirectToLea .pc32
  else none

def rexGotpcrelx (longer : Bool) : Except Violation (Option Relaxation) := do
  let guarded ← site.prefixGuard longer
  if guarded then do
    let b1 ← byteBefore site.sectionBytes site.offsetInSection 2
    let rex ← byteBefore site.sectionBytes site.offsetInSection 3
    .ok (site.rexGotpcrelxForm (if longer then 4 else 3) b1 rex)
  else .ok none

/-- An indirect call or jump. -/
def branchForm (code : Bytes) : Option Relaxation :=
  if code = [0xff, 0x15] then site.relax .callIndirectToRelative .pc32
  else if code = [0xff, 0x25] then site.relax .jmpIndirectToRelative .pc32
  else none

/-- `R_X86_64_GOTPCRELX` -/
def gotpcrelx : Except Violation (Option Relaxation) := do
  let i ← sub site.offsetInSection 2
  match site.sectionBytes[i]? with
  | none => .ok none
  | some b1 =>
    if b1 = 0x8b ∧ site.isAbsolute then .ok (site.relax .movIndirectToAbsolute .abs32)
    else if b1 = 0x8b ∧ ! site.interposable then .ok (site.relax .movIndirectToLea .pc32)
    else if site.interposable then .ok none
    else do
      let code ← site.codeBefore 2 0
      .ok (code.bind site.branchForm)

/-- `R_X86_64_GOTPCREL` -/
def gotpcrel : Except Violation (Option Relaxation) :=
  if ! site.interposable ∧ 2 ≤ site.offsetInSection then do
    let i ← sub site.offsetInSection 2
    .ok (if site.sectionBytes[i]? = some 0x8b then mayRelax .movIndirectToLea .pc32 else none)
  else .ok none

/-- `mov *x(%rip), reg` and `add *x(%rip), reg1, reg2` -/
def gottpoffForm (instOffset : Nat) (code : Bytes) : Option Relaxation :=
  if code = [0x48, 0x8b] ∨ code = [0x4c, 0x8b] then
    mayRelax (.rexMovIndirectToAbsolute instOffset) .tpoff32
  else if code = [0x48, 0x03] ∨ code = [0x4c, 0x03] then
    mayRelax (.rexAddIndirectToAbsolute instOffset) .tpoff32
  else none

/-- `R_X86_64_GOTTPOFF` and `R_X86_64_CODE_4_GOTTPOFF` -/
def gottpoff (longer : Bool) : Except Violation (Option Relaxation) :=
  if site.outputKind.isExecutable ∧ ! site.interposable then do
    let guarded ← site.prefixGuard longer
    if guarded then do
      let code ← site.codeBefore 3 1
      .ok (code.bind (gottpoffForm (if longer then 4 else 3)))
    else .ok none
  else .ok none

/-- An `add` with an EVEX prefix. -/
def isEvexAdd (code : Bytes) : Bool :=
  match code with
  | [0x62, l5, l4, l3, op] =>
    (op == 0x1 || op == 0x3) && l5 &&& 0x47 == 0x44 && l4 &&& 0x87 == 0x84 && l3 &&& 0x14 != 0
  | _ => false

/-- `R_X86_64_CODE_6_GOTTPOFF` -/
def code6Gottpoff : Except Violation (Option Relaxation) :=
  if site.outputKind.isExecutable ∧ ! site.interposable ∧ 6 ≤ site.offsetInSection then do
    let code ← site.codeBefore 6 1
    .ok (if code.any isEvexAdd then site.relax (.rexAddIndirectToAbsolute 6) .tpoff32 else none)
  else .ok none

inductive TlsGdForm where
  | regular
  | large
  deriving DecidableEq

/-- `TlsGdForm::identify` -/
def identify : Except Violation (Option TlsGdForm) := do
  -- data16 lea 0x0(%rip),%rdi; data16 data16 rex.W call {relative function offset}
  let before ← site.codeBefore 4 0
  if before = some [0x66, 0x48, 0x8d, 0x3d] ∧
      site.codeAfter 4 8 = some [0x66, 0x66, 0x48, 0xe8] then .ok (some .regular)
  else do
    -- lea 0x0(%rip),%rdi; movabs $X,%rax
    let before ← site.codeBefore 3 0
    if before = some [0x48, 0x8d, 0x3d] ∧ site.codeAfter 4 6 = some [0x48, 0xb8] ∧
        site.codeAfter 14 19 = some [0x48, 0x01, 0xd8, 0xff, 0xd0] then .ok (some .large)
    else .ok none

/-- `R_X86_64_TLSGD` -/
def tlsgd : Except Violation (Option Relaxation) :=
  if site.outputKind.isExecutable then do
    let form ← site.identify
    if ! site.interposable then
      .ok (form.bind fun form =>
        match form with
        | .regular => site.relax .tlsGdToLocalExec .tpoff32
        | .large => site.relax .tlsGdToLocalExecLarge .tpoff32)
    else
      .ok (form.bind fun form =>
        match form with
        | .regular => mayRelax .tlsGdToInitialExec .gottpoff
        | .large => none)
  else .ok none

/-- What follows the `lea`: a direct call, a call by an absolute address, or an indirect call. -/
def tlsldForm : Option Relaxation :=
  match site.codeAfter 4 6 with
  | some [first, second] =>
    if first = 0xe8 then site.relax .tlsLdToLocalExec .none
    else if first = 0x48 ∧ second = 0xb8 then mayRelax .tlsLdToLocalExec64 .none
    else if first = 0xff ∧ second = 0x15 then site.relax .tlsLdToLocalExecNoPlt .none
    else none
  | _ => none

/-- `R_X86_64_TLSLD` -/
def tlsld : Except Violation (Option Relaxation) :=
  if site.outputKind.isExecutable then do
    -- lea 0x0(%rip),%rdi
    let before ← site.codeBefore 3 0
    .ok (if before = some [0x48, 0x8d, 0x3d] then site.tlsldForm else none)
  else .ok none

/-- A `lea` with a REX prefix in front of the offset. -/
def isLea (code : Option Bytes) : Bool := code == some [0x48, 0x8d] || code == some [0x4c, 0x8d]

/-- `R_X86_64_GOTPC32_TLSDESC` and `R_X86_64_CODE_4_GOTPC32_TLSDESC`.  Where the guard of the first
arm does not hold, the shorter form comes to an arm of its own. -/
def gotpc32Tlsdesc (longer : Bool) : Except Violation (Option Relaxation) :=
  if site.outputKind.isExecutable then do
    let guarded ← if site.interposable then .ok false else site.prefixGuard longer
    if guarded then do
      let code ← site.codeBefore 3 1
      .ok (if isLea code then
        site.relax (.tlsDescToLocalExec (if longer then 4 else 3)) .tpoff32 else none)
    else if longer then .ok none
    else do
      let code ← site.codeBefore 3 1
      .ok (if isLea code then site.relax .tlsDescToInitialExec .gottpoff else none)
  else .ok none

/-- `new_relaxation` -/
def newRelaxation : Except Violation (Option Relaxation) :=
  if site.flags.ifunc then
    .ok (if site.relocationKind = .pc32 then some ⟨.noOp, .plt32, true⟩ else none)
  else if ! site.executableSection then .ok none
  else
    match site.relocationKind with
    | .rexGotpcrelx => site.rexGotpcrelx false
    | .code4Gotpcrelx => site.rexGotpcrelx true
    | .gotpcrelx => site.gotpcrelx
    | .gotpcrel => site.gotpcrel
    | .gottpoff => site.gottpoff false
    | .code4Gottpoff => site.gottpoff true
    | .code6Gottpoff => site.code6Gottpoff
    | .plt32 => .ok (if ! site.interposable then site.relax .noOp .pc32 else none)
    | .pltoff64 => .ok (if ! site.interposable then site.relax .noOp .gotoff64 else none)
    | .tlsgd => site.tlsgd
    | .tlsld => site.tlsld
    | .gotpc32Tlsdesc => site.gotpc32Tlsdesc false
    | .code4Gotpc32Tlsdesc => site.gotpc32Tlsdesc true
    | .tlsdescCall =>
      .ok (if site.outputKind.isExecutable then site.relax .skipTlsDescCall .none else none)
    | .pc32 | .other _ => .ok none

end Site

end Srs.X86Relaxation
