/-
# Relaxation stays inside the section

`Safe` says of the arguments of `newRelaxation` that it meets no violation, and that a relaxation it
returns can be applied and leaves a place for the new relocation inside the section.  That depends
on the bytes around the relocation: each instruction that is recognised is rewritten up to a place
of its own (`Relaxation.reach`), and the guards in front of the looks backwards are missing for some
types.  `safe_iff_inBounds` says for which arguments nothing goes wrong.
-/
import Srs.Relocation.X86Relaxation

namespace Srs.X86Relaxation

open Buffers Checked Srs.Dynamic List Option RelaxationKind X86Relaxation.Relaxation

/-! ## 1. What is asked for, and when it is given -/

/-- The relaxation can be applied, and the relocation after it is written inside the section. -/
def Relaxation.StaysInside (r : Relaxation) (bytes : Bytes) (offset : Nat) : Prop :=
  ∀ addend, Holds (r.kind.apply ⟨bytes, offset, addend⟩) fun target =>
    target.sectionBytes.length = bytes.length ∧
      target.offsetInSection + r.relInfo.size ≤ bytes.length

namespace Site

variable (site : Site)

/-- A choice without a violation, of something that stays inside. -/
def SafeChoice (found : Except Violation (Option Relaxation)) : Prop :=
  Holds found fun found =>
    ∀ r, found = some r → r.StaysInside site.sectionBytes site.offsetInSection

def Safe : Prop := site.SafeChoice site.newRelaxation

/-- The section goes on for so many bytes from the offset. -/
def Fits (count : Nat) : Prop := site.offsetInSection + count ≤ site.sectionBytes.length

/-- The bytes in front of the offset. -/
def Before (back stop : Nat) (code : Bytes) : Prop :=
  slice site.sectionBytes (site.offsetInSection - back) (site.offsetInSection - stop) = some code

/-- The instructions with a REX prefix that use the address itself. -/
def RexOperation (code : Bytes) : Prop :=
  ∃ rex op, code = [rex, op] ∧ (rex = 0x48 ∨ rex = 0x4c) ∧
    if site.isAbsolute then op = 0x8b ∨ op = 0x2b ∨ op = 0x3b
    else site.interposable = false ∧ op = 0x8b

/-- The arguments for which nothing goes outside the section. -/
def InBounds : Prop :=
  if site.flags.ifunc then site.relocationKind = .pc32 → site.Fits 4
  else site.executableSection = true →
    match site.relocationKind with
    | .rexGotpcrelx | .code4Gotpcrelx =>
      3 ≤ site.offsetInSection → site.offsetInSection ≤ site.sectionBytes.length + 1 ∧
        ∀ code, site.Before 3 1 code → site.RexOperation code → site.Fits 4
    | .gotpcrelx => 2 ≤ site.offsetInSection ∧
        ((site.sectionBytes[site.offsetInSection - 2]? = some 0x8b ∧
            (site.isAbsolute = true ∨ site.interposable = false) ∨
          site.interposable = false ∧
            (site.Before 2 0 [0xff, 0x15] ∨ site.Before 2 0 [0xff, 0x25])) → site.Fits 4)
    | .gotpcrel => site.interposable = false → 2 ≤ site.offsetInSection →
        site.sectionBytes[site.offsetInSection - 2]? = some 0x8b → site.Fits 4
    | .gottpoff => site.outputKind.isExecutable = true → site.interposable = false →
        3 ≤ site.offsetInSection →
          ∀ code, site.Before 3 1 code → (gottpoffForm 3 code).isSome → site.Fits 4
    | .code4Gottpoff => site.outputKind.isExecutable = true → site.interposable = false →
        (4 ≤ site.offsetInSection → site.offsetInSection < site.sectionBytes.length + 4) ∧
        (3 ≤ site.offsetInSection →
          ∀ code, site.Before 3 1 code → (gottpoffForm 4 code).isSome → site.Fits 4)
    | .code6Gottpoff => site.outputKind.isExecutable = true → site.interposable = false →
        6 ≤ site.offsetInSection →
          ∀ code, site.Before 6 1 code → isEvexAdd code = true → site.Fits 4
    | .plt32 => site.interposable = false → site.Fits 4
    | .pltoff64 => site.interposable = false → site.Fits 8
    | .tlsgd => site.outputKind.isExecutable = true → 4 ≤ site.offsetInSection ∧
        (site.Before 4 0 [0x66, 0x48, 0x8d, 0x3d] →
          site.codeAfter 4 8 = some [0x66, 0x66, 0x48, 0xe8] → site.Fits 12)
    | .tlsld => site.outputKind.isExecutable = true → 3 ≤ site.offsetInSection ∧
        (site.Before 3 0 [0x48, 0x8d, 0x3d] →
          (∀ next, site.codeAfter 4 6 = some [0xe8, next] → site.Fits 9) ∧
          (site.codeAfter 4 6 = some [0x48, 0xb8] → site.Fits 19) ∧
          (site.codeAfter 4 6 = some [0xff, 0x15] → site.Fits 10))
    | .gotpc32Tlsdesc => site.outputKind.isExecutable = true → 3 ≤ site.offsetInSection ∧
        ∀ code, site.Before 3 1 code → isLea (some code) = true → site.Fits 4
    | .code4Gotpc32Tlsdesc =>
      site.outputKind.isExecutable = true → site.interposable = false →
        (4 ≤ site.offsetInSection → site.offsetInSection < site.sectionBytes.length + 4) ∧
        (3 ≤ site.offsetInSection →
          ∀ code, site.Before 3 1 code → isLea (some code) = true → site.Fits 4)
    | .tlsdescCall => site.outputKind.isExecutable = true → site.Fits 2
    | .pc32 | .other _ => True

end Site

/-! ## 2. How far each relaxation reaches -/

@[simp] theorem holds_byteBefore {bytes : Bytes} {offset back : Nat} {p : UInt8 → Prop} :
    Holds (byteBefore bytes offset back) p ↔
      back ≤ offset ∧ ∃ h : offset - back < bytes.length, p bytes[offset - back] := by
  simp [byteBefore]

variable {p : Bytes → Prop}

@[simp] theorem holds_setByteBefore {bytes : Bytes} {offset back : Nat} {value : UInt8} : Holds (setByteBefore bytes offset back value) p ↔
      back ≤ offset ∧ offset - back < bytes.length ∧ p (bytes.set (offset - back) value) := by
  simp [setByteBefore]

@[simp] theorem holds_copyAround {bytes code : Bytes} {offset back after : Nat} : Holds (copyAround bytes offset back after code) p ↔
      back ≤ offset ∧
        (offset + after ≤ bytes.length ∧ code.length = offset + after - (offset - back)) ∧
        p (splice bytes (offset - back) code) := by
  simp only [copyAround, holds_bind, holds_sub, holds_copy]
  constructor
  · rintro ⟨hback, ⟨-, hfit, hlen⟩, hp⟩
    exact ⟨hback, ⟨hfit, hlen⟩, hp⟩
  · rintro ⟨hback, ⟨hfit, hlen⟩, hp⟩
    exact ⟨hback, ⟨by omega, hfit, hlen⟩, hp⟩

/-- How many bytes in front of the offset a relaxation touches. -/
def RelaxationKind.back : RelaxationKind → Nat
  | movIndirectToLea | movIndirectToAbsolute | callIndirectToRelative | jmpIndirectToRelative => 2
  | rexAddIndirectToAbsolute instOffset => if instOffset = 6 then 5 else 3
  | tlsGdToLocalExec | tlsGdToInitialExec => 4
  | noOp | skipTlsDescCall => 0
  | _ => 3

/-- Where the bytes end, counted from the offset, that a relaxation or the relocation after it
touches. -/
def Relaxation.reach (r : Relaxation) : Nat :=
  match r.kind with
  | .noOp => r.relInfo.size
  | .tlsGdToLocalExec | .tlsGdToInitialExec => 12
  | .tlsGdToLocalExecLarge | .tlsLdToLocalExec64 => 19
  | .tlsLdToLocalExec => 9
  | .tlsLdToLocalExecNoPlt => 10
  | .skipTlsDescCall => 2
  | _ => 4

/-- The relocation after the relaxation has the size that the instruction has place for. -/
def Relaxation.Sized (r : Relaxation) : Prop :=
  match r.kind with
  | .noOp => True
  | .tlsLdToLocalExec | .tlsLdToLocalExecNoPlt | .tlsLdToLocalExec64 | .skipTlsDescCall =>
    r.relInfo.size = 0
  | .tlsDescToLocalExec instOffset => (instOffset = 3 ∨ instOffset = 4) ∧ r.relInfo.size = 4
  | _ => r.relInfo.size = 4

variable {bytes : Bytes} {offset : Nat} {size : Nat}

theorem setOperation_inside {opcode bits : UInt8} {bytes' : Bytes} (h : 2 ≤ offset)
    (hlen : bytes'.length = bytes.length) (addend : Int) :
    (Holds (setOperation bytes' offset opcode bits >>= fun result =>
        .ok (⟨result, offset, addend⟩ : Target)) fun target =>
      target.sectionBytes.length = bytes.length ∧ target.offsetInSection + 4 ≤ bytes.length)
      ↔ offset + 4 ≤ bytes.length := by
  simp only [setOperation, holds_bind, holds_byteBefore, holds_setByteBefore, holds_ok,
    length_set, hlen, exists_prop, true_and]
  omega

theorem rexIndirect_inside (opcode bits : UInt8) (i : Nat) (h : 3 ≤ offset) (addend : Int) :
    (Holds (rexIndirectToAbsolute i opcode bits ⟨bytes, offset, addend⟩) fun target =>
      target.sectionBytes.length = bytes.length ∧ target.offsetInSection + 4 ≤ bytes.length)
      ↔ offset + 4 ≤ bytes.length := by
  simp only [rexIndirectToAbsolute, setOperation, holds_bind, holds_byteBefore,
    holds_setByteBefore, holds_ite, holds_ok, length_set]
  split <;> simp only [exists_prop, true_and] <;> omega

theorem rexAdd_inside (i : Nat) (h : (if i = 6 then 5 else 3) ≤ offset) (addend : Int) :
    (Holds (rexAddIndirectToAbsolute i ⟨bytes, offset, addend⟩) fun target =>
      target.sectionBytes.length = bytes.length ∧ target.offsetInSection + 4 ≤ bytes.length)
      ↔ offset + 4 ≤ bytes.length := by
  have hback : 3 ≤ offset := by split at h <;> omega
  simp only [rexAddIndirectToAbsolute, setOperation, holds_bind, holds_byteBefore,
    holds_setByteBefore, holds_ite, holds_ok, length_set]
  split
  · simp only [exists_prop, true_and]
    omega
  · split
    · rename_i hsix
      rw [if_pos hsix] at h
      simp only [exists_prop, true_and]
      omega
    · simp only [exists_prop, true_and]
      omega

/-- A sequence of instructions is as long as the place it is put in. -/
theorem replaceCode_inside {back after advance : Nat} {code : Bytes} (h : back ≤ offset)
    (hcode : code.length = back + after) (addend : Int) :
    (Holds (replaceCode back after advance code ⟨bytes, offset, addend⟩) fun target =>
      target.sectionBytes.length = bytes.length ∧ target.offsetInSection + size ≤ bytes.length)
      ↔ offset + after ≤ bytes.length ∧ offset + advance + size ≤ bytes.length := by
  simp only [replaceCode, holds_bind, holds_copyAround, holds_ok]
  constructor
  · rintro ⟨-, ⟨hfit, -⟩, -, hsize⟩
    exact ⟨hfit, hsize⟩
  · rintro ⟨hfit, hsize⟩
    refine ⟨h, ⟨hfit, by omega⟩, ?_, hsize⟩
    exact length_splice (by omega)

/-- The registers are read without a violation where three bytes are in front of the offset. -/
theorem holds_tlsDescRegisters {p : UInt8 × UInt8 → Prop} (h : 3 ≤ offset)
    (hlen : offset ≤ bytes.length) (addend : Int) (hp : ∀ registers, p registers) :
    Holds (tlsDescRegisters ⟨bytes, offset, addend⟩) p := by
  simp only [tlsDescRegisters, holds_bind, holds_byteBefore, holds_ok]
  exact ⟨h, by omega, by omega, by omega, hp _⟩

theorem exists_of_holds {α : Type} {x : Except Violation α} {p : α → Prop} (h : Holds x p) :
    ∃ a, p a :=
  h.imp fun _ ha => ha.2

/-- What is loaded through a descriptor is replaced by one instruction of the same length. -/
theorem descriptor_inside (h : 3 ≤ offset) (code : UInt8 → UInt8 → Bytes)
    (hcode : ∀ rexR reg, (code rexR reg).length = 7) (addend : Int) :
    (Holds (tlsDescRegisters ⟨bytes, offset, addend⟩) fun registers =>
      Holds (replaceCode 3 4 0 (code registers.1 registers.2) ⟨bytes, offset, addend⟩) fun target =>
        target.sectionBytes.length = bytes.length ∧ target.offsetInSection + 4 ≤ bytes.length)
      ↔ offset + 4 ≤ bytes.length := by
  have hreplace := fun registers : UInt8 × UInt8 =>
    @replaceCode_inside bytes offset 4 3 4 0 _ h (hcode registers.1 registers.2) addend
  constructor
  · intro hholds
    obtain ⟨registers, hregisters⟩ := exists_of_holds hholds
    exact ((hreplace registers).mp hregisters).1
  · intro hfit
    refine holds_tlsDescRegisters h (by omega) addend fun registers => ?_
    exact (hreplace registers).mpr ⟨hfit, by omega⟩

variable {r : Relaxation}

theorem apply_inside (hsized : r.Sized) (hback : r.kind.back ≤ offset)
    (addend : Int) :
    (Holds (r.kind.apply ⟨bytes, offset, addend⟩) fun target =>
      target.sectionBytes.length = bytes.length ∧
        target.offsetInSection + r.relInfo.size ≤ bytes.length)
      ↔ offset + r.reach ≤ bytes.length := by
  obtain ⟨kind, relInfo, mandatory⟩ := r
  cases kind with
  | movIndirectToLea =>
    have hsize : relInfo.size = 4 := hsized
    simp only [back] at hback
    simp only [apply, holds_bind, holds_setByteBefore, holds_ok, length_set,
      hsize, reach, true_and]
    omega
  | movIndirectToAbsolute =>
    have hsize : relInfo.size = 4 := hsized
    rw [hsize]
    exact setOperation_inside hback rfl 0
  | rexMovIndirectToAbsolute i | rexSubIndirectToAbsolute i | rexCmpIndirectToAbsolute i =>
    have hsize : relInfo.size = 4 := hsized
    rw [hsize]
    exact rexIndirect_inside _ _ i hback addend
  | rexAddIndirectToAbsolute i =>
    have hsize : relInfo.size = 4 := hsized
    rw [hsize]
    exact rexAdd_inside i hback addend
  | callIndirectToRelative =>
    have hsize : relInfo.size = 4 := hsized
    rw [hsize]
    refine (replaceCode_inside hback rfl addend).trans ?_
    simp only [reach]
    omega
  | jmpIndirectToRelative =>
    have hsize : relInfo.size = 4 := hsized
    simp only [back] at hback
    simp only [apply, holds_bind, holds_copyAround, holds_sub, holds_ok, hsize,
      reach, length_cons, length_nil]
    constructor
    · rintro ⟨-, ⟨hfit, -⟩, -⟩
      exact hfit
    · intro hfit
      refine ⟨hback, ⟨hfit, by omega⟩, by omega, ?_, by omega⟩
      exact length_splice (by simp only [length_cons, length_nil]; omega)
  | noOp =>
    simp only [apply, holds_ok, reach, true_and]
  | tlsGdToLocalExec | tlsGdToInitialExec | tlsGdToLocalExecLarge =>
    have hsize : relInfo.size = 4 := hsized
    rw [hsize]
    simp only [apply, holds_bind, holds_ok]
    refine (replaceCode_inside hback rfl addend).trans ?_
    simp only [reach]
    omega
  | tlsLdToLocalExec | tlsLdToLocalExecNoPlt | tlsLdToLocalExec64 | skipTlsDescCall =>
    have hsize : relInfo.size = 0 := hsized
    rw [hsize]
    refine (replaceCode_inside hback rfl addend).trans ?_
    simp only [reach]
    omega
  | tlsDescToLocalExec i =>
    obtain ⟨hi, hsize⟩ : (i = 3 ∨ i = 4) ∧ relInfo.size = 4 := hsized
    rw [hsize]
    simp only [apply, holds_bind]
    rcases hi with rfl | rfl <;>
      simp only [↓reduceIte, holds_bind, holds_ok, Nat.reduceEqDiff]
    · exact descriptor_inside hback (fun rexR reg => [if rexR = 0 then 0x48 else 0x49, 0xc7,
        0xc0 ||| reg, 0, 0, 0, 0]) (fun _ _ => rfl) addend
    · exact descriptor_inside hback (fun rexR reg => [if rexR = 0 then 0x18 else 0x19, 0xc7,
        0xc0 ||| reg, 0, 0, 0, 0]) (fun _ _ => rfl) addend
  | tlsDescToInitialExec =>
    have hsize : relInfo.size = 4 := hsized
    rw [hsize]
    simp only [apply, holds_bind]
    exact descriptor_inside hback (fun rexR reg => [if rexR = 0 then 0x48 else 0x4c, 0x8b,
      (0x05 : UInt8) ||| reg <<< 3, 0, 0, 0, 0]) (fun _ _ => rfl) addend

/-- A relaxation stays inside when the section goes on as far as it reaches. -/
theorem Relaxation.staysInside_iff (hsized : r.Sized)
    (hback : r.kind.back ≤ offset) :
    r.StaysInside bytes offset ↔ offset + r.reach ≤ bytes.length :=
  ⟨fun h => (apply_inside hsized hback 0).mp (h 0),
    fun h addend => (apply_inside hsized hback addend).mpr h⟩

/-! ## 3. One kind of relocation at a time -/

namespace Site

variable {site : Site}

/-- Whatever was found stays inside. -/
def Stays (site : Site) (found : Option Relaxation) : Prop :=
  ∀ r, found = some r → r.StaysInside site.sectionBytes site.offsetInSection

@[simp] theorem stays_none : site.Stays none := by simp [Stays]

theorem stays_some {r : Relaxation} (hsized : r.Sized)
    (hback : r.kind.back ≤ site.offsetInSection) : site.Stays (some r) ↔ site.Fits r.reach := by
  simp only [Stays, some.injEq, forall_eq']
  exact staysInside_iff hsized hback

variable {back stop : Nat}

@[simp] theorem holds_codeBefore {p : Option Bytes → Prop} :
    Holds (site.codeBefore back stop) p ↔ back ≤ site.offsetInSection ∧
      stop ≤ site.offsetInSection ∧ p (slice site.sectionBytes (site.offsetInSection - back)
        (site.offsetInSection - stop)) := by
  simp [codeBefore]

/-- The guard lets through whatever has three bytes in front of it. -/
@[simp] theorem holds_prefixGuard {longer : Bool} {p : Bool → Prop} :
    Holds (site.prefixGuard longer) p ↔
      (longer = true → 4 ≤ site.offsetInSection →
        site.offsetInSection < site.sectionBytes.length + 4) ∧
      p (decide (3 ≤ site.offsetInSection)) := by
  unfold prefixGuard
  split
  case isTrue h =>
    have hthree : 3 ≤ site.offsetInSection := by omega
    have hlen : site.offsetInSection - 4 < site.sectionBytes.length ↔
        site.offsetInSection < site.sectionBytes.length + 4 := by omega
    simp [h.1, h.2, hthree, hlen]
  case isFalse h =>
    simp only [holds_ok, iff_and_self]
    exact fun _ hlonger hfour => absurd ⟨hlonger, hfour⟩ h

/-- Two bytes in front of the offset. -/
theorem before_three_one (hback : 3 ≤ site.offsetInSection)
    (hop : site.offsetInSection - 2 < site.sectionBytes.length) (code : Bytes) :
    site.Before 3 1 code ↔ code = [site.sectionBytes[site.offsetInSection - 3],
      site.sectionBytes[site.offsetInSection - 2]] := by
  have htake : (site.sectionBytes.drop (site.offsetInSection - 3)).take 2 =
      [site.sectionBytes[site.offsetInSection - 3],
        site.sectionBytes[site.offsetInSection - 2]] := by
    have hnext : site.offsetInSection - 3 + 1 = site.offsetInSection - 2 := by omega
    rw [drop_eq_getElem_cons (by omega), hnext, drop_eq_getElem_cons (by omega)]
    rfl
  have hcount : site.offsetInSection - 1 - (site.offsetInSection - 3) = 2 := by omega
  rw [Before, slice_of_le (by omega) (by omega), hcount, htake, some.injEq, eq_comm]

@[simp] theorem rexOperation_pair {rex op : UInt8} : site.RexOperation [rex, op] ↔
    (rex = 0x48 ∨ rex = 0x4c) ∧ if site.isAbsolute then op = 0x8b ∨ op = 0x2b ∨ op = 0x3b
      else site.interposable = false ∧ op = 0x8b := by
  constructor
  · rintro ⟨rex, op, hcode, h⟩
    obtain ⟨rfl, rfl⟩ : _ ∧ _ := by simpa using hcode
    exact h
  · exact fun h => ⟨rex, op, rfl, h⟩

theorem stays_rexGotpcrelxForm (i : Nat) (b1 rex : UInt8) (hback : 3 ≤ site.offsetInSection) :
    site.Stays (site.rexGotpcrelxForm i b1 rex) ↔ (site.RexOperation [rex, b1] → site.Fits 4) := by
  have hmove : site.Stays (site.relax .movIndirectToLea .pc32) ↔ site.Fits 4 :=
    stays_some rfl (by simp only [back]; omega)
  unfold rexGotpcrelxForm
  rw [rexOperation_pair]
  split
  case isTrue hrex => simp [hrex]
  case isFalse hrex =>
    have hrex : rex = 0x48 ∨ rex = 0x4c := by simpa [or_iff_not_imp_left] using hrex
    simp only [hrex, true_and]
    split
    case isTrue habsolute =>
      have hmov : site.Stays (site.relax (.rexMovIndirectToAbsolute i) .abs32) ↔ site.Fits 4 :=
        stays_some rfl hback
      have hsub : site.Stays (site.relax (.rexSubIndirectToAbsolute i) .abs32) ↔ site.Fits 4 :=
        stays_some rfl hback
      have hcmp : site.Stays (site.relax (.rexCmpIndirectToAbsolute i) .abs32) ↔ site.Fits 4 :=
        stays_some rfl hback
      split
      case isTrue h => simp [h, hmov]
      split
      case isTrue h => simp [h, hsub]
      split
      case isTrue h => simp [h, hcmp]
      case isFalse h8b h2b h3b => simp [h8b, h2b, h3b]
    case isFalse habsolute =>
      by_cases h : site.interposable = false ∧ b1 = 0x8b
      · simp [h, hmove]
      · simp [h]

theorem safe_rexGotpcrelx (longer : Bool) : site.SafeChoice (site.rexGotpcrelx longer) ↔
    (3 ≤ site.offsetInSection → site.offsetInSection ≤ site.sectionBytes.length + 1 ∧
      ∀ code, site.Before 3 1 code → site.RexOperation code → site.Fits 4) := by
  change Holds (site.rexGotpcrelx longer) site.Stays ↔ _
  by_cases hthree : 3 ≤ site.offsetInSection
  · simp only [rexGotpcrelx, holds_bind, holds_prefixGuard, hthree, decide_true, if_true,
      holds_byteBefore, holds_ok, true_imp_iff, true_and]
    constructor
    · rintro ⟨-, -, hop, hrex, hstays⟩
      refine ⟨by omega, fun code hcode hoperation => ?_⟩
      rw [before_three_one hthree hop] at hcode
      subst hcode
      exact (stays_rexGotpcrelxForm _ _ _ hthree).mp hstays hoperation
    · rintro ⟨hlen, hfits⟩
      refine ⟨by omega, by omega, by omega, by omega, ?_⟩
      rw [stays_rexGotpcrelxForm _ _ _ hthree]
      exact hfits _ ((before_three_one hthree (by omega) _).mpr rfl)
  · simp only [rexGotpcrelx, holds_bind, holds_prefixGuard, hthree, decide_false,
      false_imp_iff, iff_true, reduceCtorEq, if_false, holds_ok]
    exact ⟨by omega, stays_none⟩

/-- What is read in front of the offset is inside the section. -/
theorem Before.stop_le {code : Bytes} (h : site.Before back stop code) :
    site.offsetInSection - stop ≤ site.sectionBytes.length :=
  (slice_eq_some.mp h).2.1

theorem stays_branch (htwo : 2 ≤ site.offsetInSection) (code : Option Bytes) :
    site.Stays (code.bind site.branchForm) ↔
      (code = some [0xff, 0x15] ∨ code = some [0xff, 0x25] → site.Fits 4) := by
  have hcall : site.Stays (site.relax .callIndirectToRelative .pc32) ↔ site.Fits 4 :=
    stays_some rfl htwo
  have hjmp : site.Stays (site.relax .jmpIndirectToRelative .pc32) ↔ site.Fits 4 :=
    stays_some rfl htwo
  cases code with
  | none => simp
  | some code =>
    simp only [bind_some, branchForm, some.injEq]
    split
    case isTrue h => simp [h, hcall]
    split
    case isTrue h => simp [h, hjmp]
    case isFalse hnot15 hnot25 => simp [hnot15, hnot25]

theorem safe_gotpcrelx : site.SafeChoice site.gotpcrelx ↔ 2 ≤ site.offsetInSection ∧
    ((site.sectionBytes[site.offsetInSection - 2]? = some 0x8b ∧
        (site.isAbsolute = true ∨ site.interposable = false) ∨
      site.interposable = false ∧
        (site.Before 2 0 [0xff, 0x15] ∨ site.Before 2 0 [0xff, 0x25])) → site.Fits 4) := by
  change Holds site.gotpcrelx site.Stays ↔ _
  rw [gotpcrelx, holds_bind, holds_sub, and_congr_right_iff]
  intro htwo
  have habs : site.Stays (site.relax .movIndirectToAbsolute .abs32) ↔ site.Fits 4 :=
    stays_some rfl htwo
  have hmove : site.Stays (site.relax .movIndirectToLea .pc32) ↔ site.Fits 4 :=
    stays_some rfl htwo
  split
  case h_1 hnone =>
    -- Nothing can be read there, so no call or jump is recognised either.
    have hbefore : ∀ code, ¬ site.Before 2 0 code := by
      intro code hcode
      have hstop := hcode.stop_le
      rw [List.getElem?_eq_none_iff] at hnone
      omega
    simp [hnone, hbefore]
  case h_2 b1 hb1 =>
    rw [hb1, some.injEq]
    split
    case isTrue h => simp [h, habs]
    split
    case isTrue h =>
      have hinterposable : site.interposable = false := by simpa using h.2
      simp [h, hinterposable, hmove]
    split
    case isTrue h => simp_all
    case isFalse hmov hlea hinterposable =>
      have hinterposable : site.interposable = false := by simpa using hinterposable
      have hb1 : b1 ≠ 0x8b := fun h => hlea ⟨h, by simp [hinterposable]⟩
      simp only [holds_bind, holds_codeBefore, holds_ok, stays_branch htwo, htwo, Nat.zero_le,
        true_and, hb1, hinterposable, false_and, false_or, Before]

theorem safe_gotpcrel : site.SafeChoice site.gotpcrel ↔
    (site.interposable = false → 2 ≤ site.offsetInSection →
      site.sectionBytes[site.offsetInSection - 2]? = some 0x8b → site.Fits 4) := by
  change Holds site.gotpcrel site.Stays ↔ _
  unfold gotpcrel
  split
  case isTrue h =>
    have hmove : site.Stays (mayRelax .movIndirectToLea .pc32) ↔ site.Fits 4 := stays_some rfl h.2
    have hinterposable : site.interposable = false := by simpa using h.1
    simp only [holds_bind, holds_sub, holds_ok, h.2, hinterposable, true_and, true_imp_iff]
    split
    case isTrue hmov => simp [hmov, hmove]
    case isFalse hother => simp [hother]
  case isFalse h =>
    simp only [holds_ok, stays_none, true_iff]
    intro hinterposable htwo
    exact absurd ⟨by simp [hinterposable], htwo⟩ h

variable {code : Option Bytes}

theorem stays_bind {form : Bytes → Option Relaxation} :
    site.Stays (code.bind form) ↔ ∀ bytes, code = some bytes → site.Stays (form bytes) := by
  cases code <;> simp

@[simp] theorem isSome_mayRelax {kind : RelaxationKind} {relInfo : RelInfo} :
    (mayRelax kind relInfo).isSome = true := rfl

theorem stays_gottpoffForm {i : Nat} (hi : i ≠ 6) (hthree : 3 ≤ site.offsetInSection)
    (code : Bytes) : site.Stays (gottpoffForm i code) ↔
      ((gottpoffForm i code).isSome → site.Fits 4) := by
  have hmov : site.Stays (mayRelax (.rexMovIndirectToAbsolute i) .tpoff32) ↔ site.Fits 4 :=
    stays_some rfl hthree
  have hadd : site.Stays (mayRelax (.rexAddIndirectToAbsolute i) .tpoff32) ↔ site.Fits 4 :=
    stays_some rfl (by simpa only [back, if_neg hi] using hthree)
  unfold gottpoffForm
  split
  case isTrue h => simp [hmov]
  split
  case isTrue h => simp [hadd]
  case isFalse h => simp

theorem safe_gottpoff (longer : Bool) : site.SafeChoice (site.gottpoff longer) ↔
    (site.outputKind.isExecutable = true → site.interposable = false →
      (longer = true → 4 ≤ site.offsetInSection →
        site.offsetInSection < site.sectionBytes.length + 4) ∧
      (3 ≤ site.offsetInSection → ∀ code, site.Before 3 1 code →
        (gottpoffForm (if longer then 4 else 3) code).isSome → site.Fits 4)) := by
  change Holds (site.gottpoff longer) site.Stays ↔ _
  have hsix : (if longer then 4 else 3) ≠ 6 := by split <;> omega
  unfold gottpoff
  split
  case isFalse h => simp_all
  case isTrue h =>
    have hinterposable : site.interposable = false := by simpa using h.2
    simp only [holds_bind, holds_prefixGuard, h.1, hinterposable, true_imp_iff,
      and_congr_right_iff]
    intro hprefix
    by_cases hthree : 3 ≤ site.offsetInSection
    · simp only [hthree, decide_true, if_true, holds_bind, holds_codeBefore, holds_ok,
        stays_bind, stays_gottpoffForm hsix hthree, true_and, true_imp_iff, Before]
      exact and_iff_right (by omega)
    · simp [hthree]

theorem safe_code6Gottpoff : site.SafeChoice site.code6Gottpoff ↔
    (site.outputKind.isExecutable = true → site.interposable = false →
      6 ≤ site.offsetInSection →
        ∀ code, site.Before 6 1 code → isEvexAdd code = true → site.Fits 4) := by
  change Holds site.code6Gottpoff site.Stays ↔ _
  unfold code6Gottpoff
  split
  case isFalse h =>
    simp only [holds_ok, stays_none, true_iff]
    intro hexecutable hinterposable hsix
    exact absurd ⟨hexecutable, by simp [hinterposable], hsix⟩ h
  case isTrue h =>
    have hinterposable : site.interposable = false := by simpa using h.2.1
    have hadd : site.Stays (site.relax (.rexAddIndirectToAbsolute 6) .tpoff32) ↔ site.Fits 4 :=
      stays_some rfl (by simp only [back, if_true]; omega)
    simp only [holds_bind, holds_codeBefore, holds_ok, h.1, h.2.2, hinterposable, true_imp_iff,
      true_and, Before]
    constructor
    · rintro ⟨-, hstays⟩ code hcode hevex
      rw [hcode] at hstays
      simpa [hevex, hadd] using hstays
    · refine fun hfits => ⟨by omega, ?_⟩
      cases hcode : slice site.sectionBytes (site.offsetInSection - 6)
          (site.offsetInSection - 1) with
      | none => simp
      | some code =>
        by_cases hevex : isEvexAdd code = true
        · simpa [hevex, hadd] using hfits code hcode hevex
        · simp [hevex]

theorem fits_of_codeAfter {start stop : Nat} {code : Bytes}
    (h : site.codeAfter start stop = some code) : site.Fits stop :=
  (slice_eq_some.mp h).2.1

theorem safe_tlsgd : site.SafeChoice site.tlsgd ↔
    (site.outputKind.isExecutable = true → 4 ≤ site.offsetInSection ∧
      (site.Before 4 0 [0x66, 0x48, 0x8d, 0x3d] →
        site.codeAfter 4 8 = some [0x66, 0x66, 0x48, 0xe8] → site.Fits 12)) := by
  change Holds site.tlsgd site.Stays ↔ _
  unfold tlsgd
  split
  case isFalse h => simp [h]
  case isTrue h =>
    simp only [identify, holds_bind, holds_codeBefore, holds_ite, h, true_imp_iff,
      and_congr_right_iff, Nat.zero_le, true_and]
    intro hfour
    have hexec : site.Stays (site.relax .tlsGdToLocalExec .tpoff32) ↔ site.Fits 12 :=
      stays_some rfl hfour
    have hlarge : site.Stays (site.relax .tlsGdToLocalExecLarge .tpoff32) ↔ site.Fits 19 :=
      stays_some rfl (by simp only [back]; omega)
    have hinitial : site.Stays (mayRelax .tlsGdToInitialExec .gottpoff) ↔ site.Fits 12 :=
      stays_some rfl hfour
    split
    case isTrue hregular =>
      have hbefore : site.Before 4 0 [0x66, 0x48, 0x8d, 0x3d] := hregular.1
      cases site.interposable <;> simp [hexec, hinitial, hbefore, hregular.2]
    case isFalse hother =>
      have hnot : ¬ (site.Before 4 0 [0x66, 0x48, 0x8d, 0x3d] ∧
          site.codeAfter 4 8 = some [0x66, 0x66, 0x48, 0xe8]) := hother
      have himp : (site.Before 4 0 [0x66, 0x48, 0x8d, 0x3d] →
          site.codeAfter 4 8 = some [0x66, 0x66, 0x48, 0xe8] → site.Fits 12) :=
        fun hbefore hafter => absurd ⟨hbefore, hafter⟩ hnot
      refine iff_of_true ⟨by omega, ?_⟩ himp
      split
      case isTrue hform =>
        have hfits := fits_of_codeAfter hform.2.2
        cases site.interposable <;> simp [hlarge, hfits]
      case isFalse => cases site.interposable <;> simp

theorem safe_tlsld : site.SafeChoice site.tlsld ↔
    (site.outputKind.isExecutable = true → 3 ≤ site.offsetInSection ∧
      (site.Before 3 0 [0x48, 0x8d, 0x3d] →
        (∀ next, site.codeAfter 4 6 = some [0xe8, next] → site.Fits 9) ∧
        (site.codeAfter 4 6 = some [0x48, 0xb8] → site.Fits 19) ∧
        (site.codeAfter 4 6 = some [0xff, 0x15] → site.Fits 10))) := by
  change Holds site.tlsld site.Stays ↔ _
  unfold tlsld
  split
  case isFalse h => simp [h]
  case isTrue h =>
    simp only [holds_bind, holds_codeBefore, holds_ok, h, true_imp_iff, and_congr_right_iff,
      Nat.zero_le, true_and]
    intro hthree
    have hcall : site.Stays (site.relax .tlsLdToLocalExec .none) ↔ site.Fits 9 :=
      stays_some rfl hthree
    have hlarge : site.Stays (mayRelax .tlsLdToLocalExec64 .none) ↔ site.Fits 19 :=
      stays_some rfl hthree
    have hindirect : site.Stays (site.relax .tlsLdToLocalExecNoPlt .none) ↔ site.Fits 10 :=
      stays_some rfl hthree
    split
    case isFalse hother => simpa [Before] using fun hbefore => absurd hbefore hother
    case isTrue hlea =>
      have hbefore : site.Before 3 0 [0x48, 0x8d, 0x3d] := hlea
      simp only [hbefore, true_imp_iff]
      unfold tlsldForm
      split
      case h_1 first second hcode =>
        simp only [hcode, some.injEq, List.cons.injEq, and_true]
        split
        case isTrue h => simp [h, hcall]
        split
        case isTrue h => simp [h, hlarge]
        split
        case isTrue h => simp [h, hindirect]
        case isFalse hne hmovabs hff => simp [hne, hmovabs, hff]
      case h_2 hnone =>
        exact iff_of_true stays_none ⟨fun next hcode => absurd hcode (hnone _ _),
          fun hcode => absurd hcode (hnone _ _), fun hcode => absurd hcode (hnone _ _)⟩

theorem stays_lea {found : Option Relaxation}
    (hfound : site.Stays found ↔ site.Fits 4) : site.Stays (if isLea code then found else none) ↔
      ∀ bytes, code = some bytes → isLea (some bytes) = true → site.Fits 4 := by
  cases code with
  | none => simp [isLea]
  | some bytes =>
    split
    case isTrue h => simp [h, hfound]
    case isFalse h => simp [h]

theorem safe_gotpc32Tlsdesc (longer : Bool) : site.SafeChoice (site.gotpc32Tlsdesc longer) ↔
    (site.outputKind.isExecutable = true →
      if longer then site.interposable = false →
        (4 ≤ site.offsetInSection → site.offsetInSection < site.sectionBytes.length + 4) ∧
        (3 ≤ site.offsetInSection →
          ∀ code, site.Before 3 1 code → isLea (some code) = true → site.Fits 4)
      else 3 ≤ site.offsetInSection ∧
        ∀ code, site.Before 3 1 code → isLea (some code) = true → site.Fits 4) := by
  change Holds (site.gotpc32Tlsdesc longer) site.Stays ↔ _
  unfold gotpc32Tlsdesc
  split
  case isFalse h => simp [h]
  case isTrue h =>
    -- The first arm rewrites to the offset itself, the second loads it from the table.
    have hexec (hthree : 3 ≤ site.offsetInSection) {i : Nat} (hi : i = 3 ∨ i = 4) :
        site.Stays (site.relax (.tlsDescToLocalExec i) .tpoff32) ↔ site.Fits 4 :=
      stays_some ⟨hi, rfl⟩ hthree
    have hinitial (hthree : 3 ≤ site.offsetInSection) :
        site.Stays (site.relax .tlsDescToInitialExec .gottpoff) ↔ site.Fits 4 :=
      stays_some rfl hthree
    by_cases hthree : 3 ≤ site.offsetInSection
    · have hone : 1 ≤ site.offsetInSection := by omega
      cases longer <;> cases hinterposable : site.interposable <;>
        simp [h, hthree, hone, stays_lea (hinitial hthree),
          stays_lea (hexec hthree (.inl rfl)), stays_lea (hexec hthree (.inr rfl)), Before]
    · cases longer <;> cases hinterposable : site.interposable <;> simp [h, hthree]

/-- Exactly where nothing goes outside the section. -/
theorem safe_iff_inBounds (site : Site) : site.Safe ↔ site.InBounds := by
  unfold Safe InBounds newRelaxation
  split
  case isTrue hifunc =>
    have hnoOp : site.Stays (some ⟨.noOp, .plt32, true⟩) ↔ site.Fits 4 :=
      stays_some trivial (Nat.zero_le _)
    change Holds _ site.Stays ↔ _
    rw [holds_ok]
    split
    case isTrue hkind => simp [hkind, hnoOp]
    case isFalse hkind => simp [hkind]
  case isFalse hifunc =>
    split
    case isTrue hexec =>
      change Holds _ site.Stays ↔ _
      simp_all only [Bool.not_eq_true', holds_ok, stays_none, Bool.false_eq_true, false_imp_iff]
    case isFalse hexec =>
      have hexec : site.executableSection = true := by simpa using hexec
      simp only [hexec, true_imp_iff]
      cases site.relocationKind with
      | pc32 | other raw => exact iff_of_true (holds_ok.mpr stays_none) trivial
      | rexGotpcrelx => exact safe_rexGotpcrelx false
      | code4Gotpcrelx => exact safe_rexGotpcrelx true
      | gotpcrelx => exact safe_gotpcrelx
      | gotpcrel => exact safe_gotpcrel
      | gottpoff => simpa using @safe_gottpoff site false
      | code4Gottpoff => simpa using @safe_gottpoff site true
      | code6Gottpoff => exact safe_code6Gottpoff
      | tlsgd => exact safe_tlsgd
      | tlsld => exact safe_tlsld
      | gotpc32Tlsdesc => simpa using @safe_gotpc32Tlsdesc site false
      | code4Gotpc32Tlsdesc => simpa using @safe_gotpc32Tlsdesc site true
      | plt32 =>
        have hnoOp : site.Stays (site.relax .noOp .pc32) ↔ site.Fits 4 :=
          stays_some trivial (Nat.zero_le _)
        change Holds _ site.Stays ↔ _
        cases site.interposable <;> simp [hnoOp]
      | pltoff64 =>
        have hnoOp : site.Stays (site.relax .noOp .gotoff64) ↔ site.Fits 8 :=
          stays_some trivial (Nat.zero_le _)
        change Holds _ site.Stays ↔ _
        cases site.interposable <;> simp [hnoOp]
      | tlsdescCall =>
        have hskip : site.Stays (site.relax .skipTlsDescCall .none) ↔ site.Fits 2 :=
          stays_some rfl (Nat.zero_le _)
        change Holds _ site.Stays ↔ _
        cases site.outputKind.isExecutable <;> simp [hskip]

/-- An offset at the start of a section, with a type whose instruction begins in front of it. -/
def startOfSection : Site where
  relocationKind := .gotpcrelx
  sectionBytes := [0, 0, 0, 0]
  offsetInSection := 0
  flags := {}
  outputKind := .dynamicExecutable .relocatable
  executableSection := true

theorem startOfSection_underflows : startOfSection.newRelaxation = .error .underflow ∧
    ¬ startOfSection.Safe := by
  have hunderflow : startOfSection.newRelaxation = .error .underflow := rfl
  refine ⟨hunderflow, ?_⟩
  unfold Safe SafeChoice
  rw [hunderflow]
  exact holds_error

end Site

end Srs.X86Relaxation
