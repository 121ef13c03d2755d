/-
# Retargeted relocations

`incremental.rs`: when a target moves, the values that refer to it are not computed again; they are
moved with it.  For a relocation that is a difference of what the two targets contribute, with the
place left out; for a pointer in a chain its target is decoded, moved and encoded again, beside the
link to the next slot.  `retargeting` says that either gives what relinking gives.
-/
import Srs.MachO.ChainedFixupsWalk

namespace Srs.MachO

open Nat

/-! ## 1. Relocated values -/

def ARM64_RELOC_UNSIGNED : UInt8 := 0
def ARM64_RELOC_BRANCH26 : UInt8 := 2
def ARM64_RELOC_PAGE21 : UInt8 := 3
def ARM64_RELOC_PAGEOFF12 : UInt8 := 4
def ARM64_RELOC_GOT_LOAD_PAGE21 : UInt8 := 5
def ARM64_RELOC_GOT_LOAD_PAGEOFF12 : UInt8 := 6
def ARM64_RELOC_TLVP_LOAD_PAGE21 : UInt8 := 8
def ARM64_RELOC_TLVP_LOAD_PAGEOFF12 : UInt8 := 9

def PAGE_MASK_4KB : UInt64 := 0xfff

def machoAarch64RelocatedValue (rType : UInt8) (targetValue : UInt64) (addend : Int64)
    (place : UInt64) : Option UInt64 :=
  let targetValue := targetValue + addend.toUInt64
  if rType = ARM64_RELOC_UNSIGNED then some targetValue
  else if rType = ARM64_RELOC_BRANCH26 then some (targetValue - place)
  else if rType = ARM64_RELOC_PAGE21 ∨ rType = ARM64_RELOC_GOT_LOAD_PAGE21
      ∨ rType = ARM64_RELOC_TLVP_LOAD_PAGE21 then
    some ((targetValue &&& ~~~PAGE_MASK_4KB) - (place &&& ~~~PAGE_MASK_4KB))
  else if rType = ARM64_RELOC_PAGEOFF12 ∨ rType = ARM64_RELOC_GOT_LOAD_PAGEOFF12
      ∨ rType = ARM64_RELOC_TLVP_LOAD_PAGEOFF12 then some targetValue
  else none

def machoAarch64RelocatedValueAfterTargetMove (rType : UInt8)
    (previousWrittenValue previousTargetValue currentTargetValue : UInt64) (addend : Int64) :
    Option UInt64 := do
  let previousTargetComponent ← machoAarch64RelocatedValue rType previousTargetValue addend 0
  let currentTargetComponent ← machoAarch64RelocatedValue rType currentTargetValue addend 0
  some (previousWrittenValue + (currentTargetComponent - previousTargetComponent))

/-- The place contributes the same to the values of all targets. -/
theorem machoAarch64RelocatedValue_place (rType : UInt8) (place : UInt64) :
    ∃ share : UInt64, ∀ (target : UInt64) (addend : Int64),
      machoAarch64RelocatedValue rType target addend place
        = (machoAarch64RelocatedValue rType target addend 0).map (· - share) := by
  simp only [machoAarch64RelocatedValue]
  split
  · exact ⟨0, fun _ _ => by simp⟩
  · split
    · exact ⟨place, fun _ _ => by simp⟩
    · split
      · exact ⟨place &&& ~~~PAGE_MASK_4KB, fun _ _ => by simp⟩
      · exact ⟨0, fun _ _ => by split <;> simp⟩

theorem relocated_after_move {rType : UInt8} {written previous current place : UInt64}
    {addend : Int64} (h : machoAarch64RelocatedValue rType previous addend place = some written) :
    machoAarch64RelocatedValueAfterTargetMove rType written previous current addend
      = machoAarch64RelocatedValue rType current addend place := by
  obtain ⟨share, hshare⟩ := machoAarch64RelocatedValue_place rType place
  rw [hshare, Option.map_eq_some_iff] at h
  obtain ⟨component, hcomponent, rfl⟩ := h
  rw [hshare, machoAarch64RelocatedValueAfterTargetMove, hcomponent]
  cases machoAarch64RelocatedValue rType current addend 0 with
  | none => rfl
  | some moved =>
    refine congrArg some ?_
    grind

/-! ## 2. Pointers in chains -/

def MACHO_CHAINED_PTR_NEXT_SHIFT : Nat := 51
def MACHO_CHAINED_PTR_NEXT_MASK : Nat := 0xfff <<< MACHO_CHAINED_PTR_NEXT_SHIFT

def encodeIncrementalMachoChainedRebase (target nextStride : Nat) : Except Failure Nat := do
  let high8 := target >>> 56
  let address := target &&& ((1 <<< 56) - 1)
  ensure (MACHO_START_MEM_ADDRESS ≤ address)
    ("cannot encode Mach-O chained rebase target " ++ ChainedRebases.hex target)
  let runtimeOffset := address - MACHO_START_MEM_ADDRESS
  ensure (¬ (runtimeOffset ≥ 1 <<< 36 ∨ nextStride ≥ 0x1000))
    "Mach-O chained rebase value exceeds its encoded range"
  .ok (runtimeOffset ||| (high8 <<< 36) ||| (nextStride <<< MACHO_CHAINED_PTR_NEXT_SHIFT))

/-- The target of a rebase, decoded. -/
def decodedTarget (previousValue : Nat) (overflowed : String) : Except Failure Nat := do
  let runtimeOffset := previousValue &&& ((1 <<< 36) - 1)
  let high8 := (previousValue >>> 36) &&& 0xff
  let address ← checkedAdd MACHO_START_MEM_ADDRESS runtimeOffset overflowed
  .ok (address ||| (high8 <<< 56))

def migratedMachoChainedRebaseValue (previousValue previousTarget currentTarget : UInt64) :
    Except Failure Nat := do
  ensure (previousValue.toNat >>> 63 = 0) "migrated Mach-O GOT address is a chained bind"
  let decoded ← decodedTarget previousValue.toNat "migrated Mach-O GOT target overflowed"
  ensure (decoded = previousTarget.toNat) "migrated Mach-O GOT target changed before retargeting"
  let nextStride :=
    (previousValue.toNat &&& MACHO_CHAINED_PTR_NEXT_MASK) >>> MACHO_CHAINED_PTR_NEXT_SHIFT
  encodeIncrementalMachoChainedRebase currentTarget.toNat nextStride

/-- A sum that is out of the range of 128 bits is out of the range of 64. -/
def addSignedDeltaU64 (value : Nat) (delta : Int) : Option Nat :=
  let adjusted := value + delta
  if 0 ≤ adjusted ∧ adjusted < 2 ^ 64 then some adjusted.toNat else none

def retargetMachoChainedRebaseValue (previousValue : UInt64) (targetDelta : Int) :
    Except Failure Nat := do
  ensure (previousValue.toNat >>> 63 = 0) "Mach-O chained pointer is a bind"
  let previousTarget ←
    decodedTarget previousValue.toNat "Mach-O chained rebase target overflowed"
  let currentTarget ← okOr (.error "Mach-O chained rebase target movement overflowed")
    (addSignedDeltaU64 previousTarget targetDelta)
  let nextStride :=
    (previousValue.toNat &&& MACHO_CHAINED_PTR_NEXT_MASK) >>> MACHO_CHAINED_PTR_NEXT_SHIFT
  encodeIncrementalMachoChainedRebase currentTarget nextStride

/-- The address a rebase points at. -/
def ChainedPointer.target : ChainedPointer → Option Nat
  | .rebase runtimeOffset high8 =>
    some (MACHO_START_MEM_ADDRESS + runtimeOffset + high8 * 2 ^ 56)
  | .bind .. => none

/-- A word is the rebase for a target that the full writer puts in the place of another word. -/
structure Replaces (before word target : Nat) : Prop where
  bindClear : word >>> 63 = 0
  sameNext : decodeNext word = decodeNext before
  decoded : (decodePointer word).target = some target
  relinked : encodeChainedRebase target (decodeNext before) = .ok word

variable {value target stride word : Nat}

/-- Both writers encode a rebase alike. -/
theorem encodeIncremental_relinked (h : encodeIncrementalMachoChainedRebase target stride = .ok word) :
    encodeChainedRebase target stride = .ok word := by
  obtain ⟨_, haddress, h⟩ := bind_eq_ok.mp h
  obtain ⟨_, hrange, h⟩ := bind_eq_ok.mp h
  obtain ⟨hoffset, hstride⟩ := not_or.mp (ensure_eq_ok.mp hrange)
  refine bind_eq_ok.mpr ⟨(), ensure_eq_ok.mpr (ensure_eq_ok.mp haddress), ?_⟩
  refine bind_eq_ok.mpr ⟨(), ensure_eq_ok.mpr (not_le.mp hoffset), ?_⟩
  exact bind_eq_ok.mpr ⟨(), ensure_eq_ok.mpr (not_le.mp hstride), h⟩

theorem decodedTarget_of_rebase (hclear : value >>> 63 = 0) (overflowed : String) :
    ∃ target < 2 ^ 64, decodedTarget value overflowed = .ok target ∧
      (decodePointer value).target = some target := by
  have hoffset : value &&& ((1 <<< 36) - 1) = value % 2 ^ 36 := and_two_pow_sub_one_eq_mod _ 36
  have hhigh : (value >>> 36) &&& 0xff = value / 2 ^ 36 % 2 ^ 8 := by
    rw [shiftRight_eq_div_pow]
    exact and_two_pow_sub_one_eq_mod _ 8
  rw [shiftRight_eq_div_pow] at hclear
  have hsum : MACHO_START_MEM_ADDRESS + value % 2 ^ 36 < 2 ^ 56 := by
    rw [MACHO_START_MEM_ADDRESS]
    omega
  refine ⟨MACHO_START_MEM_ADDRESS + value % 2 ^ 36 + value / 2 ^ 36 % 2 ^ 8 * 2 ^ 56, by omega,
    ?_, ?_⟩
  · rw [decodedTarget, hoffset, hhigh, checkedAdd, if_pos (by omega), ok_bind,
      or_shiftLeft hsum]
  · rw [decodePointer_eq, if_neg (by omega)]
    rfl

/-- A word that was encoded for a target, with the distance of another word. -/
theorem replaces_of_encode (htarget : target < 2 ^ 64) (h : encodeIncrementalMachoChainedRebase target
      ((value &&& MACHO_CHAINED_PTR_NEXT_MASK) >>> MACHO_CHAINED_PTR_NEXT_SHIFT) = .ok word) :
    Replaces value word target := by
  have hnext : (value &&& MACHO_CHAINED_PTR_NEXT_MASK) >>> MACHO_CHAINED_PTR_NEXT_SHIFT
      = decodeNext value := by
    rw [shiftRight_and_distrib, MACHO_CHAINED_PTR_NEXT_MASK, shiftLeft_shiftRight]
    rfl
  rw [hnext] at h
  obtain ⟨_, haddress, -⟩ := bind_eq_ok.mp h
  have hrelinked := encodeIncremental_relinked h
  obtain ⟨hlt, hstride, hpointer⟩ := encodeChainedRebase_spec htarget hrelinked
  have hmask : target &&& ((1 <<< 56) - 1) = target % 2 ^ 56 := and_two_pow_sub_one_eq_mod _ 56
  have hle := ensure_eq_ok.mp haddress
  rw [hmask] at hle
  refine ⟨?_, hstride, ?_, hrelinked⟩
  · rw [decodePointer_eq] at hpointer
    split at hpointer
    · contradiction
    · rw [shiftRight_eq_div_pow]
      omega
  · rw [hpointer, ChainedPointer.target]
    refine congrArg some ?_
    omega

/-- **What is retargeted is what is relinked.**  A relocated value that follows its target becomes
the value for the new target at the same place; a rebase that follows its target becomes the word
that the full writer puts there. -/
theorem retargeting :
    (∀ rType previous current place written addend,
      machoAarch64RelocatedValue rType previous addend place = some written →
      machoAarch64RelocatedValueAfterTargetMove rType written previous current addend
        = machoAarch64RelocatedValue rType current addend place) ∧
    (∀ (value : UInt64) delta word, value.toNat >>> 63 = 0 →
      retargetMachoChainedRebaseValue value delta = .ok word →
      ∃ old target : Nat, (decodePointer value.toNat).target = some old ∧
        (target : Int) = old + delta ∧ Replaces value.toNat word target) ∧
    ∀ (value previous current : UInt64) word, value.toNat >>> 63 = 0 →
      migratedMachoChainedRebaseValue value previous current = .ok word →
      (decodePointer value.toNat).target = some previous.toNat ∧
        Replaces value.toNat word current.toNat := by
  refine ⟨fun rType previous current place written addend => relocated_after_move, ?_, ?_⟩
  · intro value delta word hclear h
    obtain ⟨old, -, hold, htarget⟩ := decodedTarget_of_rebase hclear
      "Mach-O chained rebase target overflowed"
    obtain ⟨_, -, h⟩ := bind_eq_ok.mp h
    rw [hold, ok_bind] at h
    obtain ⟨target, hmoved, h⟩ := bind_eq_ok.mp h
    have hmoved := okOr_eq_ok.mp hmoved
    rw [addSignedDeltaU64] at hmoved
    split at hmoved
    · next hrange =>
      cases hmoved
      refine ⟨old, _, htarget, Int.toNat_of_nonneg hrange.1, replaces_of_encode ?_ h⟩
      omega
    · contradiction
  · intro value previous current word hclear h
    obtain ⟨old, -, hold, htarget⟩ := decodedTarget_of_rebase hclear
      "migrated Mach-O GOT target overflowed"
    obtain ⟨_, -, h⟩ := bind_eq_ok.mp h
    rw [hold, ok_bind] at h
    obtain ⟨_, hprevious, h⟩ := bind_eq_ok.mp h
    rw [ensure_eq_ok.mp hprevious] at htarget
    exact ⟨htarget, replaces_of_encode current.toNat_lt h⟩

end Srs.MachO
