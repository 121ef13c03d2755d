/-
# The space of a resolution

Three functions go through the flags of a symbol on their own: the first counts the bytes that its
GOT and PLT entries and their dynamic relocations need, the second takes the addresses of the
entries, and the third writes them.  They agree on all flags but those that `Balanced` excludes
(`resolution_accounting_iff`).  Among what it excludes are flags that do occur: a thread-local that
is not defined anywhere and is hidden gets the space of a dynamic relocation that is not written
(`hidden_tls_unbalanced`).
-/
import Srs.Dynamic.Flags

namespace Srs.Dynamic

open Option Bool

/-! ## 1. Bytes -/

def gotEntrySize : Nat := 8
def pltEntrySize : Nat := 16
def relaEntrySize : Nat := 24
def relrEntrySize : Nat := 8

/-- Bytes of the parts of the output that belong to resolutions. -/
@[ext] structure Parts where
  got : Nat := 0
  pltGot : Nat := 0
  relaPlt : Nat := 0
  relaDynGeneral : Nat := 0
  relaDynRelative : Nat := 0
  relrDyn : Nat := 0
  deriving DecidableEq

namespace Parts

instance : Zero Parts := ⟨{}⟩

instance : Add Parts where
  add a b :=
    { got := a.got + b.got
      pltGot := a.pltGot + b.pltGot
      relaPlt := a.relaPlt + b.relaPlt
      relaDynGeneral := a.relaDynGeneral + b.relaDynGeneral
      relaDynRelative := a.relaDynRelative + b.relaDynRelative
      relrDyn := a.relrDyn + b.relrDyn }

@[simp] theorem zero_got : (0 : Parts).got = 0 := rfl
@[simp] theorem zero_pltGot : (0 : Parts).pltGot = 0 := rfl
@[simp] theorem zero_relaPlt : (0 : Parts).relaPlt = 0 := rfl
@[simp] theorem zero_relaDynGeneral : (0 : Parts).relaDynGeneral = 0 := rfl
@[simp] theorem zero_relaDynRelative : (0 : Parts).relaDynRelative = 0 := rfl
@[simp] theorem zero_relrDyn : (0 : Parts).relrDyn = 0 := rfl
@[simp] theorem add_got (a b : Parts) : (a + b).got = a.got + b.got := rfl
@[simp] theorem add_pltGot (a b : Parts) : (a + b).pltGot = a.pltGot + b.pltGot := rfl
@[simp] theorem add_relaPlt (a b : Parts) : (a + b).relaPlt = a.relaPlt + b.relaPlt := rfl
@[simp] theorem add_relaDynGeneral (a b : Parts) :
    (a + b).relaDynGeneral = a.relaDynGeneral + b.relaDynGeneral := rfl
@[simp] theorem add_relaDynRelative (a b : Parts) :
    (a + b).relaDynRelative = a.relaDynRelative + b.relaDynRelative := rfl
@[simp] theorem add_relrDyn (a b : Parts) : (a + b).relrDyn = a.relrDyn + b.relrDyn := rfl

theorem zero_add (a : Parts) : 0 + a = a := by
  ext <;> simp

theorem add_zero (a : Parts) : a + 0 = a := rfl

variable {a b c : Parts}

theorem add_left_cancel_iff : a + b = a + c ↔ b = c := by
  simp only [Parts.ext_iff, add_got, add_pltGot, add_relaPlt, add_relaDynGeneral,
    add_relaDynRelative, add_relrDyn, Nat.add_left_cancel_iff]

theorem add_right_cancel_iff : a + c = b + c ↔ a = b := by
  simp only [Parts.ext_iff, add_got, add_pltGot, add_relaPlt, add_relaDynGeneral,
    add_relaDynRelative, add_relrDyn, Nat.add_right_cancel_iff]

theorem add_right_comm (a b c : Parts) : a + b + c = a + c + b := by
  ext <;> simp only [add_got, add_pltGot, add_relaPlt, add_relaDynGeneral, add_relaDynRelative,
    add_relrDyn, Nat.add_right_comm]

def gotEntries (n : Nat) : Parts := { got := gotEntrySize * n }
def pltEntry : Parts := { pltGot := pltEntrySize }
def ifuncRela : Parts := { relaPlt := relaEntrySize }
def generalRela : Parts := { relaDynGeneral := relaEntrySize }
def relativeRela : Parts := { relaDynRelative := relaEntrySize }
def relr : Parts := { relrDyn := relrEntrySize }

end Parts

/-! ## 2. Allocation -/

/-- The relative relocation of an entry, packed or not. -/
def allocateRelative (relrEnabled : Bool) : Parts :=
  if relrEnabled then .relr else .relativeRela

/-- The relocation of an address in the GOT. -/
def allocateGotRela (flags : ValueFlags) (kind : OutputKind) (relrEnabled : Bool) : Parts :=
  if flags.ifunc then .ifuncRela
  else if flags.hasDynamicSymbol then .generalRela
  else if flags.isAddress && kind.isRelocatable then allocateRelative relrEnabled
  else 0

/-- The part of `allocate_resolution` for an address in the GOT -/
def allocateGot (flags : ValueFlags) (kind : OutputKind) (relrEnabled : Bool) : Parts :=
  if flags.got && !flags.isTls then
    .gotEntries 1 + (if flags.plt then .pltEntry else 0) + allocateGotRela flags kind relrEnabled
  else 0

def allocateIfuncGot (flags : ValueFlags) (kind : OutputKind) (relrEnabled : Bool) : Parts :=
  if flags.ifuncGotForAddress then
    .gotEntries 1 + if kind.isRelocatable then allocateRelative relrEnabled else 0
  else 0

/-- The part of `allocate_resolution` for thread-locals -/
def allocateTls (flags : ValueFlags) (kind : OutputKind) : Parts :=
  (if flags.gotTlsOffset then
      .gotEntries 1 +
        (if flags.isInterposable || kind.isSharedObject then .generalRela else 0 : Parts)
    else 0 : Parts) +
    (if flags.gotTlsModule then
      .gotEntries 2 + (if !kind.isExecutable || flags.dynamic then .generalRela else 0 : Parts) +
        (if flags.hasDynamicSymbol then .generalRela else 0 : Parts)
    else 0 : Parts) +
    (if flags.gotTlsDescriptor then .gotEntries 2 + .generalRela else 0 : Parts)

def allocateResolution (flags : ValueFlags) (kind : OutputKind) (relrEnabled : Bool) : Parts :=
  allocateGot flags kind relrEnabled + allocateIfuncGot flags kind relrEnabled +
    allocateTls flags kind

/-! ## 3. Addresses -/

/-- The flags when the resolution is created: a symbol that marks a section which turned out to be
absent becomes absolute. -/
def ValueFlags.withAbsent (flags : ValueFlags) (absent : Bool) : ValueFlags :=
  { flags with absolute := flags.absolute || absent }

structure Resolution where
  rawValue : Nat
  dynamicSymbolIndex : Option Nat
  gotAddress : Option Nat
  pltAddress : Option Nat
  flags : ValueFlags
  deriving DecidableEq

def numTlsSlots (flags : ValueFlags) : Nat :=
  (if flags.gotTlsOffset then 1 else 0) + (if flags.gotTlsModule then 2 else 0) +
    if flags.gotTlsDescriptor then 2 else 0

/-- `create_resolution`: the resolution and the bytes of the GOT and the PLT that it takes -/
def createResolution (flags : ValueFlags) (rawValue : Nat) (dynamicSymbolIndex : Option Nat)
    (gotOffset pltOffset : Nat) : Resolution × Parts :=
  if flags.plt then
    (⟨if flags.dynamic then pltOffset else rawValue, dynamicSymbolIndex, some gotOffset,
        some pltOffset, flags⟩,
      .pltEntry + .gotEntries (if flags.ifuncGotForAddress then 2 else 1))
  else if flags.isTls then
    (⟨rawValue, dynamicSymbolIndex, some gotOffset, none, flags⟩, .gotEntries (numTlsSlots flags))
  else if flags.got then
    (⟨rawValue, dynamicSymbolIndex, some gotOffset, none, flags⟩, .gotEntries 1)
  else (⟨rawValue, dynamicSymbolIndex, none, none, flags⟩, 0)

section

variable (flags : ValueFlags) (rawValue : Nat) (dynamicSymbolIndex : Option Nat)
  (gotOffset pltOffset : Nat)

theorem createResolution_flags :
    (createResolution flags rawValue dynamicSymbolIndex gotOffset pltOffset).1.flags = flags := by
  unfold createResolution
  split
  · rfl
  · split
    · rfl
    · split <;> rfl

theorem createResolution_gotAddress :
    (createResolution flags rawValue dynamicSymbolIndex gotOffset pltOffset).1.gotAddress
      = if flags.plt || flags.isTls || flags.got then some gotOffset else none := by
  unfold createResolution
  cases flags.plt <;> cases flags.isTls <;> cases flags.got <;> rfl

theorem createResolution_pltAddress :
    (createResolution flags rawValue dynamicSymbolIndex gotOffset pltOffset).1.pltAddress
      = if flags.plt then some pltOffset else none := by
  unfold createResolution
  cases flags.plt <;> cases flags.isTls <;> cases flags.got <;> rfl

theorem createResolution_taken :
    (createResolution flags rawValue dynamicSymbolIndex gotOffset pltOffset).2
      = if flags.plt then .pltEntry + .gotEntries (if flags.ifuncGotForAddress then 2 else 1)
        else if flags.isTls then .gotEntries (numTlsSlots flags)
        else if flags.got then .gotEntries 1 else 0 := by
  unfold createResolution
  cases flags.plt <;> cases flags.isTls <;> cases flags.got <;> rfl

end

/-- What `update_redirect_resolutions` and `update_dynamic_symbol_resolutions` may change. -/
def Resolution.update (res : Resolution) (rawValue : Nat) (dynamicSymbolIndex : Option Nat) :
    Resolution :=
  { res with rawValue := rawValue, dynamicSymbolIndex := dynamicSymbolIndex }

/-! ## 4. Writing -/

/-- What the writer knows of the output: `relrDyn` is whether it has space for packed relocations,
and the last two are the bounds of the TLS segment. -/
structure WriterEnv where
  kind : OutputKind
  relrDyn : Bool
  tlsStart : Nat
  tlsEnd : Nat
  deriving DecidableEq

/-- `write_address_relocation`: packed relocations are for even places only. -/
def writeAddressRelocation (env : WriterEnv) (place : Nat) : Parts :=
  if env.relrDyn && place % 2 == 0 then .relr else .relativeRela

def processGotTlsOffset (env : WriterEnv) (res : Resolution) : Option Parts :=
  if res.flags.hasDynamicSymbol then
    res.dynamicSymbolIndex.map fun _ => .gotEntries 1 + .generalRela
  else if res.rawValue = 0 then some (.gotEntries 1)
  else if res.rawValue < env.tlsStart ∨ env.tlsEnd < res.rawValue then none
  else if env.kind.isExecutable then some (.gotEntries 1)
  else some (.gotEntries 1 + .generalRela)

def processGotTlsModAndOffset (env : WriterEnv) (res : Resolution) : Option Parts :=
  let mod : Parts := if env.kind.isExecutable && !res.flags.dynamic then .gotEntries 1
    else .gotEntries 1 + .generalRela
  match res.dynamicSymbolIndex with
  | some _ =>
    some (mod + .gotEntries 1 + if res.flags.isInterposable then .generalRela else 0)
  | none => if res.flags.isAddress then some (mod + .gotEntries 1) else none

def processGotTlsDescriptor (env : WriterEnv) : Option Parts :=
  if env.kind.isStaticExecutable then none else some (.gotEntries 2 + .generalRela)

/-- The writer's part for thread-locals, up to three entries. -/
def processTls (env : WriterEnv) (res : Resolution) : Option Parts :=
  (if res.flags.gotTlsOffset then processGotTlsOffset env res else some 0).bind fun offset =>
    (if res.flags.gotTlsModule then processGotTlsModAndOffset env res else some 0).bind fun mod =>
      (if res.flags.gotTlsDescriptor then processGotTlsDescriptor env else some 0).map fun desc =>
        offset + mod + desc

/-- The relocation of an address in the GOT. -/
def writeGotRela (env : WriterEnv) (res : Resolution) (gotAddress : Nat) : Option Parts :=
  if res.flags.dynamic ||
      (res.flags.exportDynamic && res.flags.isInterposable && !res.flags.ifunc) then
    res.dynamicSymbolIndex.map fun _ => .generalRela
  else if res.flags.ifunc then some .ifuncRela
  else if res.flags.isAddress && env.kind.isRelocatable then
    some (writeAddressRelocation env gotAddress)
  else some 0

/-- The second entry of an ifunc, with the address of its PLT entry. -/
def processIfuncGot (env : WriterEnv) (res : Resolution) (gotAddress : Nat) : Option Parts :=
  if res.flags.ifuncGotForAddress then
    res.pltAddress.map fun _ => .gotEntries 1 +
      if env.kind.isRelocatable then writeAddressRelocation env (gotAddress + gotEntrySize) else 0
  else some 0

/-- `process_resolution`: the bytes it takes, `none` where it fails -/
def processResolution (env : WriterEnv) (res : Resolution) : Option Parts :=
  match res.gotAddress with
  | none => some 0
  | some gotAddress =>
    if res.flags.isTls then processTls env res
    else
      (writeGotRela env res gotAddress).bind fun rela =>
        (processIfuncGot env res gotAddress).map fun ifuncGot =>
          .gotEntries 1 + rela + (if res.pltAddress.isSome then .pltEntry else 0) + ifuncGot

/-! ## 5. Thread-locals -/

/-- The dynamic relocations that are allocated for a thread-local. -/
def allocatedTlsRelas (flags : ValueFlags) (kind : OutputKind) : Nat :=
  (if flags.gotTlsOffset && (flags.isInterposable || kind.isSharedObject) then 1 else 0) +
    (if flags.gotTlsModule && (!kind.isExecutable || flags.dynamic) then 1 else 0) +
    (if flags.gotTlsModule && flags.hasDynamicSymbol then 1 else 0) +
    if flags.gotTlsDescriptor then 1 else 0

/-- The dynamic relocations that are written for a thread-local. -/
def writtenTlsRelas (kind : OutputKind) (res : Resolution) : Nat :=
  (if res.flags.gotTlsOffset &&
      (res.flags.hasDynamicSymbol || (res.rawValue != 0 && !kind.isExecutable)) then 1 else 0) +
    (if res.flags.gotTlsModule && (!kind.isExecutable || res.flags.dynamic) then 1 else 0) +
    (if res.flags.gotTlsModule && (res.dynamicSymbolIndex.isSome && res.flags.isInterposable) then 1
      else 0) +
    if res.flags.gotTlsDescriptor then 1 else 0

/-- GOT entries and dynamic relocations of thread-locals. -/
def tlsParts (slots relas : Nat) : Parts :=
  { got := gotEntrySize * slots, relaDynGeneral := relaEntrySize * relas }

theorem tlsParts_add (a b c d : Nat) :
    tlsParts a b + tlsParts c d = tlsParts (a + c) (b + d) := by
  ext <;> simp [tlsParts, Nat.mul_add]

theorem gotEntries_add_generalRela (n : Nat) :
    Parts.gotEntries n + Parts.generalRela = tlsParts n 1 := rfl

theorem gotEntries_eq (n : Nat) : Parts.gotEntries n = tlsParts n 0 := rfl

theorem zero_eq_tlsParts : (0 : Parts) = tlsParts 0 0 := rfl

theorem generalRela_eq : Parts.generalRela = tlsParts 0 1 := rfl

theorem tlsParts_ite {p : Prop} [Decidable p] (a b c d : Nat) :
    (if p then tlsParts a b else tlsParts c d)
      = tlsParts (if p then a else c) (if p then b else d) := by
  split <;> rfl

theorem allocateTls_eq (flags : ValueFlags) (kind : OutputKind) :
    allocateTls flags kind = tlsParts (numTlsSlots flags) (allocatedTlsRelas flags kind) := by
  unfold allocateTls numTlsSlots allocatedTlsRelas
  simp only [gotEntries_eq, generalRela_eq, zero_eq_tlsParts, tlsParts_ite, tlsParts_add]
  cases flags.gotTlsOffset <;> cases flags.gotTlsModule <;> simp [Nat.add_assoc]

theorem processGotTlsOffset_eq {env : WriterEnv} {res : Resolution} {consumed : Parts}
    (h : processGotTlsOffset env res = some consumed) :
    consumed = tlsParts 1 (if res.flags.hasDynamicSymbol ||
      (res.rawValue != 0 && !env.kind.isExecutable) then 1 else 0) := by
  unfold processGotTlsOffset at h
  split at h
  · next hdyn =>
    obtain ⟨i, -, rfl⟩ := map_eq_some_iff.mp h
    rw [hdyn]
    rfl
  · next hdyn =>
    rw [eq_false_iff.mpr hdyn]
    split at h
    · next hzero =>
      cases h
      simp [hzero, gotEntries_eq]
    · next hzero =>
      split at h
      · exact absurd h (by simp)
      · split at h
        · next hexec =>
          cases h
          simp [hexec, gotEntries_eq]
        · next hexec =>
          cases h
          simp [hexec, hzero, gotEntries_add_generalRela]

theorem processGotTlsModAndOffset_eq {env : WriterEnv} {res : Resolution} {consumed : Parts}
    (h : processGotTlsModAndOffset env res = some consumed) :
    consumed = tlsParts 2 ((if !env.kind.isExecutable || res.flags.dynamic then 1 else 0) +
      if res.dynamicSymbolIndex.isSome && res.flags.isInterposable then 1 else 0) := by
  unfold processGotTlsModAndOffset at h
  have hmod : (if env.kind.isExecutable && !res.flags.dynamic then Parts.gotEntries 1
      else Parts.gotEntries 1 + Parts.generalRela)
        = tlsParts 1 (if !env.kind.isExecutable || res.flags.dynamic then 1 else 0) := by
    cases env.kind.isExecutable <;> cases res.flags.dynamic <;> rfl
  simp only [hmod] at h
  split at h
  · next i hindex =>
    cases h
    simp only [gotEntries_eq, generalRela_eq, zero_eq_tlsParts, tlsParts_ite, tlsParts_add, hindex,
      isSome_some, Bool.true_and, ite_self]
    rfl
  · next hindex =>
    split at h
    · cases h
      simp only [gotEntries_eq, tlsParts_add, hindex, isSome_none, Bool.false_and,
        false_eq_true, if_false]
    · exact absurd h (by simp)

theorem processGotTlsDescriptor_eq {env : WriterEnv} {consumed : Parts}
    (h : processGotTlsDescriptor env = some consumed) : consumed = tlsParts 2 1 := by
  unfold processGotTlsDescriptor at h
  split at h
  · exact absurd h (by simp)
  · exact (some.inj h).symm

theorem processTls_eq {env : WriterEnv} {res : Resolution} {consumed : Parts}
    (h : processTls env res = some consumed) :
    consumed = tlsParts (numTlsSlots res.flags) (writtenTlsRelas env.kind res) := by
  obtain ⟨offset, hoffset, h⟩ := bind_eq_some_iff.mp h
  obtain ⟨mod, hmod, h⟩ := bind_eq_some_iff.mp h
  obtain ⟨desc, hdesc, rfl⟩ := map_eq_some_iff.mp h
  have hoffset' : offset = tlsParts (if res.flags.gotTlsOffset then 1 else 0)
      (if res.flags.gotTlsOffset && (res.flags.hasDynamicSymbol ||
        (res.rawValue != 0 && !env.kind.isExecutable)) then 1 else 0) := by
    cases hflag : res.flags.gotTlsOffset with
    | true =>
      rw [hflag, if_pos rfl] at hoffset
      exact processGotTlsOffset_eq hoffset
    | false =>
      rw [hflag] at hoffset
      exact (some.inj hoffset).symm
  have hmod' : mod = tlsParts (if res.flags.gotTlsModule then 2 else 0)
      ((if res.flags.gotTlsModule && (!env.kind.isExecutable || res.flags.dynamic) then 1 else 0) +
        if res.flags.gotTlsModule && (res.dynamicSymbolIndex.isSome && res.flags.isInterposable)
          then 1 else 0) := by
    cases hflag : res.flags.gotTlsModule with
    | true =>
      rw [hflag, if_pos rfl] at hmod
      exact processGotTlsModAndOffset_eq hmod
    | false =>
      rw [hflag] at hmod
      exact (some.inj hmod).symm
  have hdesc' : desc = tlsParts (if res.flags.gotTlsDescriptor then 2 else 0)
      (if res.flags.gotTlsDescriptor then 1 else 0) := by
    cases hflag : res.flags.gotTlsDescriptor with
    | true =>
      rw [hflag, if_pos rfl] at hdesc
      exact processGotTlsDescriptor_eq hdesc
    | false =>
      rw [hflag] at hdesc
      exact (some.inj hdesc).symm
  rw [hoffset', hmod', hdesc', tlsParts_add, tlsParts_add, ← Nat.add_assoc]
  rfl

/-! ## 6. Where the three agree -/

/-- The flags of a thread-local for which its relocations are written as they were allocated. -/
structure TlsBalanced (flags : ValueFlags) (kind : OutputKind) (rawValue : Nat)
    (dynamicSymbolIndex : Option Nat) : Prop where
  /-- A symbol of a shared object that is final nevertheless: its offset has too few relocations in
  an executable, and its module has too many. -/
  finalDynamic : flags.dynamic = true → flags.nonInterposable = true →
    flags.gotTlsModule = (flags.gotTlsOffset && !kind.isSharedObject)
  /-- Without a dynamic symbol, the offset is relocated if it is defined, and not in an
  executable. -/
  offset : flags.gotTlsOffset = true → flags.hasDynamicSymbol = false →
    (flags.isInterposable || kind.isSharedObject) = (rawValue != 0 && !kind.isExecutable)
  /-- A dynamic symbol has an index. -/
  module : flags.gotTlsModule = true → flags.hasDynamicSymbol = true →
    (flags.dynamic && flags.nonInterposable) = false → dynamicSymbolIndex.isSome = true

set_option synthInstance.maxSize 1000 in
/-- The table behind `allocatedTlsRelas` and `writtenTlsRelas`, over what they depend on. -/
theorem tls_table : ∀ offset mod dynamic exported final shared executable defined index : Bool,
    (shared = true → executable = false) →
    (index = true → dynamic = true ∨ exported = true ∨ final = true) →
    ((((if offset && (!final || shared) then 1 else 0) +
          (if mod && (!executable || dynamic) then 1 else 0) +
          (if mod && (dynamic || (exported && !final)) then 1 else 0)
        = (if offset && ((dynamic || (exported && !final)) || (defined && !executable)) then 1
            else 0) +
          (if mod && (!executable || dynamic) then 1 else 0) +
          if mod && (index && !final) then 1 else 0))
      ↔ ((dynamic = true → final = true → mod = (offset && !shared)) ∧
        (offset = true → (dynamic || (exported && !final)) = false →
          (!final || shared) = (defined && !executable)) ∧
        (mod = true → (dynamic || (exported && !final)) = true → (dynamic && final) = false →
          index = true))) := by
  decide

theorem tlsRelas_iff {flags : ValueFlags} {kind : OutputKind} {res : Resolution} {absent : Bool}
    (hflags : res.flags = flags.withAbsent absent) (hindex : res.dynamicSymbolIndex.isSome = true →
      flags.dynamic = true ∨ flags.exportDynamic = true ∨ flags.nonInterposable = true) :
    allocatedTlsRelas flags kind = writtenTlsRelas kind res
      ↔ TlsBalanced flags kind res.rawValue res.dynamicSymbolIndex := by
  have hshared : kind.isSharedObject = true → kind.isExecutable = false := by
    cases kind <;> simp [OutputKind.isSharedObject, OutputKind.isExecutable]
  have htable := tls_table flags.gotTlsOffset flags.gotTlsModule flags.dynamic flags.exportDynamic
    flags.nonInterposable kind.isSharedObject kind.isExecutable (res.rawValue != 0)
    res.dynamicSymbolIndex.isSome hshared hindex
  unfold allocatedTlsRelas writtenTlsRelas
  rw [hflags, show (flags.withAbsent absent).gotTlsDescriptor = flags.gotTlsDescriptor from rfl,
    Nat.add_right_cancel_iff]
  refine htable.trans ?_
  constructor
  · rintro ⟨h₁, h₂, h₃⟩
    exact ⟨h₁, h₂, h₃⟩
  · intro h
    exact ⟨h.finalDynamic, h.offset, h.module⟩

/-- The flags for which the bytes of a resolution agree. -/
structure Balanced (flags : ValueFlags) (absent : Bool) (kind : OutputKind) (rawValue : Nat)
    (dynamicSymbolIndex : Option Nat) : Prop where
  /-- PLT entries go with GOT entries, and not with thread-locals. -/
  plt : flags.plt = true → flags.got = true ∧ flags.isTls = false
  ifuncGot : flags.ifuncGotForAddress = true →
    flags.got = true ∧ flags.plt = true ∧ flags.isTls = false
  /-- An ifunc is not a symbol of a shared object. -/
  ifunc : flags.got = true → flags.isTls = false → flags.ifunc = true → flags.dynamic = false
  /-- What is relocated when it is loaded is not absent. -/
  address : flags.got = true → flags.isTls = false → flags.hasDynamicSymbol = false →
    flags.isAddress = true → kind.isRelocatable = true → absent = false
  tls : TlsBalanced flags kind rawValue dynamicSymbolIndex

/-- The bytes that are allocated are those that are taken, and those that are written. -/
def Closes (allocated taken consumed : Parts) : Prop :=
  allocated.got = taken.got ∧ allocated.pltGot = taken.pltGot ∧ allocated = consumed

theorem allocateIfuncGot_entries (flags : ValueFlags) (kind : OutputKind) (relrEnabled : Bool) :
    (allocateIfuncGot flags kind relrEnabled).got
        = (if flags.ifuncGotForAddress then gotEntrySize else 0) ∧
      (allocateIfuncGot flags kind relrEnabled).pltGot = 0 := by
  unfold allocateIfuncGot allocateRelative
  cases flags.ifuncGotForAddress <;> cases kind.isRelocatable <;> cases relrEnabled <;>
    exact ⟨rfl, rfl⟩

/-- A thread-local has only the entries of thread-locals. -/
theorem closes_tls_iff (flags : ValueFlags) (kind : OutputKind) (relrEnabled : Bool)
    (slots allocated written : Nat) :
    Closes (allocateIfuncGot flags kind relrEnabled + tlsParts slots allocated)
        (if flags.plt then .pltEntry + .gotEntries (if flags.ifuncGotForAddress then 2 else 1)
          else .gotEntries slots) (tlsParts slots written)
      ↔ flags.plt = false ∧ flags.ifuncGotForAddress = false ∧ allocated = written := by
  have hplt := (allocateIfuncGot_entries flags kind relrEnabled).2
  constructor
  · rintro ⟨hgot, hpltGot, heq⟩
    rw [Parts.add_pltGot, hplt] at hpltGot
    cases hp : flags.plt with
    | true =>
      rw [hp, if_pos rfl] at hpltGot
      exact absurd hpltGot (by simp [tlsParts, Parts.pltEntry, pltEntrySize, Parts.gotEntries])
    | false =>
      rw [hp, if_neg Bool.false_ne_true] at hgot
      cases hi : flags.ifuncGotForAddress with
      | true =>
        simp only [allocateIfuncGot, hi, if_true, Parts.add_got, Parts.gotEntries, tlsParts,
          gotEntrySize] at hgot
        omega
      | false =>
        have hrelas := congrArg Parts.relaDynGeneral heq
        simp only [allocateIfuncGot, hi, false_eq_true, if_false, Parts.add_relaDynGeneral,
          Parts.zero_relaDynGeneral, tlsParts, relaEntrySize] at hrelas
        exact ⟨rfl, rfl, by omega⟩
  · rintro ⟨hp, hi, rfl⟩
    have hzero : allocateIfuncGot flags kind relrEnabled = 0 := by
      rw [allocateIfuncGot, hi]
      rfl
    rw [hzero, hp, if_neg Bool.false_ne_true, Parts.zero_add]
    exact ⟨rfl, rfl, rfl⟩

theorem writeAddressRelocation_eq {env : WriterEnv} {relrEnabled : Bool} {place : Nat}
    (henabled : env.relrDyn = true → relrEnabled = true)
    (hspace : relrEnabled = true → env.relrDyn = true) (hplace : place % 2 = 0) :
    writeAddressRelocation env place = allocateRelative relrEnabled := by
  have heq : env.relrDyn = relrEnabled := eq_iff_iff.mpr ⟨henabled, hspace⟩
  rw [writeAddressRelocation, allocateRelative, heq, hplace, beq_self_eq_true, Bool.and_true]

/-- A relocation takes no entries. -/
theorem allocateGotRela_entries (flags : ValueFlags) (kind : OutputKind) (relrEnabled : Bool) :
    (allocateGotRela flags kind relrEnabled).got = 0 ∧
      (allocateGotRela flags kind relrEnabled).pltGot = 0 := by
  unfold allocateGotRela allocateRelative
  cases flags.ifunc <;> cases flags.hasDynamicSymbol <;> cases relrEnabled <;>
    cases (flags.isAddress && kind.isRelocatable) <;> exact ⟨rfl, rfl⟩

/-- The relocation of an address is the one that was allocated. -/
theorem gotRela_iff {flags : ValueFlags} {absent relrEnabled : Bool} {env : WriterEnv}
    {res : Resolution} {gotAddress : Nat} {written : Parts}
    (hflags : res.flags = flags.withAbsent absent)
    (hrelative : flags.ifunc = false → flags.hasDynamicSymbol = false → flags.isAddress = true →
      env.kind.isRelocatable = true →
      writeAddressRelocation env gotAddress = allocateRelative relrEnabled)
    (h : writeGotRela env res gotAddress = some written) :
    allocateGotRela flags env.kind relrEnabled = written
      ↔ (flags.ifunc = true → flags.dynamic = false) ∧
        (flags.hasDynamicSymbol = false → flags.isAddress = true → env.kind.isRelocatable = true →
          absent = false) := by
  have haddress : res.flags.isAddress = (flags.isAddress && !absent) := by
    rw [hflags]
    simp [ValueFlags.isAddress, ValueFlags.withAbsent, Bool.and_assoc]
  have hdynamic : (res.flags.dynamic ||
      (res.flags.exportDynamic && res.flags.isInterposable && !res.flags.ifunc))
        = (flags.dynamic || (flags.exportDynamic && flags.isInterposable && !flags.ifunc)) := by
    rw [hflags]
    rfl
  have hifunc : res.flags.ifunc = flags.ifunc := by rw [hflags]; rfl
  unfold writeGotRela at h
  rw [hdynamic, hifunc, haddress] at h
  unfold allocateGotRela
  cases hf : flags.ifunc with
  | true =>
    have hnot : flags.isAddress = false := by simp [ValueFlags.isAddress, hf]
    rw [hf, Bool.not_true, Bool.and_false, Bool.or_false] at h
    cases hd : flags.dynamic with
    | true =>
      rw [hd, if_pos rfl] at h
      obtain ⟨i, -, rfl⟩ := map_eq_some_iff.mp h
      simp [Parts.ifuncRela, Parts.generalRela, relaEntrySize]
    | false =>
      rw [hd] at h
      obtain rfl : Parts.ifuncRela = written := some.inj h
      simp [hnot]
  | false =>
    rw [hf, Bool.not_false, Bool.and_true] at h
    change (if flags.hasDynamicSymbol then _ else _) = _ at h
    cases hs : flags.hasDynamicSymbol with
    | true =>
      rw [hs, if_pos rfl] at h
      obtain ⟨i, -, rfl⟩ := map_eq_some_iff.mp h
      simp
    | false =>
      rw [hs] at h
      have hrel := hrelative hf hs
      cases ha : flags.isAddress with
      | false =>
        rw [ha] at h
        obtain rfl : (0 : Parts) = written := some.inj h
        simp
      | true =>
        cases hr : env.kind.isRelocatable with
        | false =>
          rw [ha, hr, Bool.and_false] at h
          obtain rfl : (0 : Parts) = written := some.inj h
          simp
        | true =>
          rw [ha, hr, hrel ha hr] at h
          cases absent with
          | false =>
            obtain rfl : allocateRelative relrEnabled = written := some.inj h
            simp
          | true =>
            -- the address became absolute: nothing is written
            obtain rfl : (0 : Parts) = written := some.inj h
            have hne : allocateRelative relrEnabled ≠ 0 := by
              cases relrEnabled <;> decide
            simp [hne]

section

variable {flags : ValueFlags} {absent relrEnabled : Bool} {env : WriterEnv} {res : Resolution}
  {consumed taken : Parts}

/-- The case of a thread-local. -/
theorem accounting_tls (htls : flags.isTls = true) (hflags : res.flags = flags.withAbsent absent)
    (hindex : res.dynamicSymbolIndex.isSome = true →
      flags.dynamic = true ∨ flags.exportDynamic = true ∨ flags.nonInterposable = true)
    (htaken : taken = if flags.plt then
        .pltEntry + .gotEntries (if flags.ifuncGotForAddress then 2 else 1)
      else .gotEntries (numTlsSlots flags))
    (h : processTls env res = some consumed) :
    Closes (allocateResolution flags env.kind relrEnabled) taken consumed
      ↔ Balanced flags absent env.kind res.rawValue res.dynamicSymbolIndex := by
  have hslots : numTlsSlots res.flags = numTlsSlots flags := by
    rw [hflags]
    rfl
  have hgot : allocateGot flags env.kind relrEnabled = 0 := by
    rw [allocateGot, htls, Bool.not_true, Bool.and_false]
    rfl
  rw [allocateResolution, hgot, Parts.zero_add, allocateTls_eq, htaken, processTls_eq h, hslots,
    closes_tls_iff, tlsRelas_iff hflags hindex]
  constructor
  · rintro ⟨hplt, hifunc, htlsBalanced⟩
    constructor
    · simp [hplt]
    · simp [hifunc]
    · simp [htls]
    · simp [htls]
    · exact htlsBalanced
  · intro hbalanced
    refine ⟨?_, ?_, hbalanced.tls⟩
    · refine eq_false_iff.mpr fun hplt => ?_
      exact absurd htls (by simp [(hbalanced.plt hplt).2])
    · refine eq_false_iff.mpr fun hifunc => ?_
      exact absurd htls
        (by simp [(hbalanced.ifuncGot hifunc).2.2])

/-- Without thread-local entries there is nothing to say about them. -/
theorem TlsBalanced.of_not_tls (htls : flags.isTls = false) (kind : OutputKind) (rawValue : Nat)
    (dynamicSymbolIndex : Option Nat) : TlsBalanced flags kind rawValue dynamicSymbolIndex := by
  simp only [ValueFlags.isTls, or_eq_false_iff] at htls
  obtain ⟨⟨hoffset, hmod⟩, -⟩ := htls
  constructor
  · simp [hoffset, hmod]
  · simp [hoffset]
  · simp [hmod]

theorem allocateTls_of_not_tls (htls : flags.isTls = false) (kind : OutputKind) :
    allocateTls flags kind = 0 := by
  simp only [ValueFlags.isTls, or_eq_false_iff] at htls
  obtain ⟨⟨hoffset, hmod⟩, hdesc⟩ := htls
  rw [allocateTls, hoffset, hmod, hdesc]
  rfl

/-- The case of a symbol without entries. -/
theorem accounting_none (htls : flags.isTls = false) (hgot : flags.got = false)
    (rawValue : Nat) (dynamicSymbolIndex : Option Nat) (htaken : taken = if flags.plt then
        .pltEntry + .gotEntries (if flags.ifuncGotForAddress then 2 else 1) else 0)
    (hconsumed : flags.plt = false → consumed = 0) :
    Closes (allocateResolution flags env.kind relrEnabled) taken consumed
      ↔ Balanced flags absent env.kind rawValue dynamicSymbolIndex := by
  have halloc : allocateResolution flags env.kind relrEnabled
      = allocateIfuncGot flags env.kind relrEnabled := by
    rw [allocateResolution, allocateTls_of_not_tls htls, allocateGot, hgot]
    exact Parts.zero_add _
  have hplt := (allocateIfuncGot_entries flags env.kind relrEnabled).2
  rw [halloc, htaken]
  constructor
  · rintro ⟨hgotEq, hpltEq, -⟩
    have hp : flags.plt = false := by
      refine eq_false_iff.mpr fun hp => ?_
      rw [hplt, if_pos hp] at hpltEq
      exact absurd hpltEq (by simp [Parts.pltEntry, pltEntrySize, Parts.gotEntries])
    have hi : flags.ifuncGotForAddress = false := by
      refine eq_false_iff.mpr fun hi => ?_
      rw [hp, allocateIfuncGot, if_pos hi] at hgotEq
      simp only [Parts.add_got, Parts.gotEntries, gotEntrySize, false_eq_true, if_false,
        Parts.zero_got] at hgotEq
      omega
    constructor
    · simp [hp]
    · simp [hi]
    · simp [hgot]
    · simp [hgot]
    · exact TlsBalanced.of_not_tls htls _ _ _
  · intro hbalanced
    have hp : flags.plt = false := by
      refine eq_false_iff.mpr fun hp => ?_
      exact absurd hgot (by simp [(hbalanced.plt hp).1])
    have hi : flags.ifuncGotForAddress = false := by
      refine eq_false_iff.mpr fun hi => ?_
      exact absurd hgot (by simp [(hbalanced.ifuncGot hi).1])
    rw [hconsumed hp, hp, allocateIfuncGot, hi]
    exact ⟨rfl, rfl, rfl⟩

variable {gotAddress : Nat}

/-- Both relative relocations are packed where they are allocated so. -/
theorem relative_of_space (hgot : gotAddress % 2 = 0)
    (henabled : env.relrDyn = true → relrEnabled = true)
    (hspace : relrEnabled = true → allocateRelative relrEnabled = .relr → env.relrDyn = true) :
    writeAddressRelocation env gotAddress = allocateRelative relrEnabled := by
  refine writeAddressRelocation_eq henabled (fun hrelr => hspace hrelr ?_) hgot
  rw [hrelr]
  rfl

/-- The case of an address in the GOT. -/
theorem accounting_got (htls : flags.isTls = false) (hgot : flags.got = true)
    (hflags : res.flags = flags.withAbsent absent)
    (hplt : res.pltAddress.isSome = flags.plt) (heven : gotAddress % 2 = 0)
    (henabled : env.relrDyn = true → relrEnabled = true)
    (hspace : (allocateResolution flags env.kind relrEnabled).relrDyn ≠ 0 → env.relrDyn = true)
    (htaken : taken = if flags.plt then
        .pltEntry + .gotEntries (if flags.ifuncGotForAddress then 2 else 1) else .gotEntries 1)
    {rela ifuncGot : Parts} (hrela : writeGotRela env res gotAddress = some rela)
    (hifuncGot : processIfuncGot env res gotAddress = some ifuncGot)
    (hconsumed : consumed = .gotEntries 1 + rela + (if flags.plt then .pltEntry else 0) + ifuncGot) :
    Closes (allocateResolution flags env.kind relrEnabled) taken consumed
      ↔ Balanced flags absent env.kind res.rawValue res.dynamicSymbolIndex := by
  have halloc : allocateResolution flags env.kind relrEnabled
      = .gotEntries 1 + (if flags.plt then .pltEntry else 0) +
          allocateGotRela flags env.kind relrEnabled +
        allocateIfuncGot flags env.kind relrEnabled := by
    rw [allocateResolution, allocateTls_of_not_tls htls, Parts.add_zero, allocateGot, hgot, htls]
    rfl
  -- the second entry is written as it was allocated
  have hifunc : (flags.ifuncGotForAddress = true → flags.plt = true) ∧
      ifuncGot = allocateIfuncGot flags env.kind relrEnabled := by
    unfold processIfuncGot at hifuncGot
    rw [show res.flags.ifuncGotForAddress = flags.ifuncGotForAddress by
      rw [hflags]; rfl] at hifuncGot
    cases hi : flags.ifuncGotForAddress with
    | false =>
      rw [hi] at hifuncGot
      rw [allocateIfuncGot, hi]
      exact ⟨nofun, (some.inj hifuncGot).symm⟩
    | true =>
      rw [hi, if_pos rfl] at hifuncGot
      obtain ⟨address, haddress, rfl⟩ := map_eq_some_iff.mp hifuncGot
      refine ⟨fun _ => by rw [← hplt, haddress]; rfl, ?_⟩
      rw [allocateIfuncGot, hi, if_pos rfl]
      cases hr : env.kind.isRelocatable with
      | false => rfl
      | true =>
        rw [if_pos rfl, if_pos rfl]
        congr 1
        refine relative_of_space (by rw [gotEntrySize]; omega) henabled fun _ hrelr => hspace ?_
        rw [halloc]
        rw [allocateIfuncGot, hi, hr, if_pos rfl, if_pos rfl, hrelr]
        simp [Parts.relr, relrEntrySize]
  have hrelative : flags.ifunc = false → flags.hasDynamicSymbol = false →
      flags.isAddress = true → env.kind.isRelocatable = true →
      writeAddressRelocation env gotAddress = allocateRelative relrEnabled := by
    intro hf hs ha hr
    refine relative_of_space heven henabled fun _ hrelr => hspace ?_
    rw [halloc]
    have hrela : allocateGotRela flags env.kind relrEnabled = .relr := by
      rw [allocateGotRela, hf, hs, ha, hr]
      exact hrelr
    rw [hrela]
    simp [Parts.relr, relrEntrySize]
  have hcloses : Closes (allocateResolution flags env.kind relrEnabled) taken consumed
      ↔ allocateGotRela flags env.kind relrEnabled = rela := by
    have hsame : allocateResolution flags env.kind relrEnabled = consumed
        ↔ allocateGotRela flags env.kind relrEnabled = rela := by
      rw [halloc, hconsumed, hifunc.2, Parts.add_right_comm _ rela, Parts.add_right_cancel_iff,
        Parts.add_left_cancel_iff]
    refine Iff.trans ⟨fun h => h.2.2, fun h => ⟨?_, ?_, h⟩⟩ hsame
    · rw [halloc, htaken, Parts.add_got, Parts.add_got, (allocateGotRela_entries _ _ _).1,
        (allocateIfuncGot_entries _ _ _).1]
      cases hp : flags.plt with
      | false =>
        rw [eq_false_iff.mpr fun hi => eq_false_iff.mp hp (hifunc.1 hi)]
        rfl
      | true => cases flags.ifuncGotForAddress <;> rfl
    · rw [halloc, htaken, Parts.add_pltGot, Parts.add_pltGot, (allocateGotRela_entries _ _ _).2,
        (allocateIfuncGot_entries _ _ _).2]
      cases flags.plt <;> rfl
  rw [hcloses, gotRela_iff hflags hrelative hrela]
  constructor
  · rintro ⟨hifuncDynamic, haddress⟩
    constructor
    · exact fun _ => ⟨hgot, htls⟩
    · exact fun hi => ⟨hgot, hifunc.1 hi, htls⟩
    · exact fun _ _ => hifuncDynamic
    · exact fun _ _ => haddress
    · exact TlsBalanced.of_not_tls htls _ _ _
  · intro hbalanced
    exact ⟨hbalanced.ifunc hgot htls, hbalanced.address hgot htls⟩

theorem accounting {gotOffset : Nat} (pltOffset : Nat)
    (hflags : res.flags = flags.withAbsent absent) (haddress : res.gotAddress
      = if flags.plt || flags.isTls || flags.got then some gotOffset else none)
    (hplt : res.pltAddress = if flags.plt then some pltOffset else none)
    (htaken : taken = if flags.plt then
        .pltEntry + .gotEntries (if flags.ifuncGotForAddress then 2 else 1)
      else if flags.isTls then .gotEntries (numTlsSlots flags)
      else if flags.got then .gotEntries 1 else 0)
    (hgot : gotOffset % gotEntrySize = 0) (henabled : env.relrDyn = true → relrEnabled = true)
    (hspace : (allocateResolution flags env.kind relrEnabled).relrDyn ≠ 0 → env.relrDyn = true)
    (hindex : res.dynamicSymbolIndex.isSome = true →
      flags.dynamic = true ∨ flags.exportDynamic = true ∨ flags.nonInterposable = true)
    (h : processResolution env res = some consumed) :
    Closes (allocateResolution flags env.kind relrEnabled) taken consumed
      ↔ Balanced flags absent env.kind res.rawValue res.dynamicSymbolIndex := by
  have hisTls : res.flags.isTls = flags.isTls := by
    rw [hflags]
    rfl
  have heven : gotOffset % 2 = 0 := by
    rw [gotEntrySize] at hgot
    omega
  unfold processResolution at h
  rw [haddress] at h
  cases htls : flags.isTls with
  | true =>
    rw [htls, Bool.or_true, Bool.true_or, if_pos rfl, hisTls, htls] at h
    rw [htls, if_pos rfl] at htaken
    exact accounting_tls htls hflags hindex htaken h
  | false =>
    rw [htls, if_neg Bool.false_ne_true] at htaken
    cases hg : flags.got with
    | false =>
      rw [hg, if_neg Bool.false_ne_true] at htaken
      refine accounting_none htls hg _ _ htaken ?_
      intro hp
      rw [hp, htls, hg] at h
      exact (some.inj h).symm
    | true =>
      rw [hg, if_pos rfl] at htaken
      rw [hg, Bool.or_true, if_pos rfl, hisTls, htls] at h
      obtain ⟨rela, hrela, h⟩ := bind_eq_some_iff.mp h
      obtain ⟨ifuncGot, hifuncGot, hconsumed⟩ := map_eq_some_iff.mp h
      have hsome : res.pltAddress.isSome = flags.plt := by
        rw [hplt]
        cases flags.plt <;> rfl
      rw [hsome] at hconsumed
      exact accounting_got htls hg hflags hsome heven henabled hspace htaken hrela hifuncGot
        hconsumed.symm

end

/-- **The bytes of a resolution agree** just where its flags are balanced: what is allocated for
the GOT, the PLT and their relocations is what is taken for the addresses and what the writer takes
from each part, whenever it succeeds. -/
theorem resolution_accounting_iff (flags : ValueFlags) (absent relrEnabled : Bool) (env : WriterEnv)
    (initialValue rawValue : Nat) (initialIndex dynamicSymbolIndex : Option Nat)
    (gotOffset pltOffset : Nat) (hgot : gotOffset % gotEntrySize = 0)
    (henabled : env.relrDyn = true → relrEnabled = true)
    (hspace : (allocateResolution flags env.kind relrEnabled).relrDyn ≠ 0 → env.relrDyn = true)
    (hindex : dynamicSymbolIndex.isSome = true →
      flags.dynamic = true ∨ flags.exportDynamic = true ∨ flags.nonInterposable = true)
    {consumed : Parts}
    (h : processResolution env
      ((createResolution (flags.withAbsent absent) initialValue
        initialIndex gotOffset pltOffset).1.update rawValue dynamicSymbolIndex) = some consumed) :
    Closes (allocateResolution flags env.kind relrEnabled)
        (createResolution (flags.withAbsent absent) initialValue
          initialIndex gotOffset pltOffset).2 consumed
      ↔ Balanced flags absent env.kind rawValue dynamicSymbolIndex := by
  refine accounting pltOffset ?_ ?_ ?_ ?_ hgot henabled hspace hindex h
  · exact createResolution_flags (flags.withAbsent absent) _ _ _ _
  · exact createResolution_gotAddress (flags.withAbsent absent) _ _ _ _
  · exact createResolution_pltAddress (flags.withAbsent absent) _ _ _ _
  · exact createResolution_taken (flags.withAbsent absent) _ _ _ _

/-- A local symbol with a GOT entry in a shared object: one packed relocation. -/
theorem local_got_closes :
    Closes (allocateResolution { nonInterposable := true, got := true } .sharedObject true)
      (createResolution { nonInterposable := true, got := true } 4096 none 64 128).2
      { got := 8, relrDyn := 8 } :=
  (resolution_accounting_iff { nonInterposable := true, got := true } false true
    ⟨.sharedObject, true, 0, 0⟩ 4096 4096 none none 64 128 rfl (fun _ => rfl) (fun _ => rfl) nofun
    rfl).mpr ⟨nofun, nofun, nofun, fun _ _ _ _ _ => rfl, TlsBalanced.of_not_tls rfl _ _ _⟩

/-- The flags of a weak reference that is hidden and not defined anywhere, with a relocation for
its thread-local offset. -/
def hiddenTls : ValueFlags :=
  ValueFlags.union { absolute := true, nonInterposable := true } (resolutionFlags .gotTpOff)

/-- In a shared object its value is 0 and no relocation is written, but one was allocated. -/
theorem hidden_tls_unbalanced :
    processResolution ⟨.sharedObject, false, 0, 0⟩ (createResolution hiddenTls 0 none 64 128).1
        = some { got := 8 } ∧
      allocateResolution hiddenTls .sharedObject false = { got := 8, relaDynGeneral := 24 } ∧
      ¬ Closes (allocateResolution hiddenTls .sharedObject false)
        (createResolution hiddenTls 0 none 64 128).2 { got := 8 } := by
  refine ⟨by decide, by decide, ?_⟩
  intro h
  exact absurd h.2.2 (by decide)

end Srs.Dynamic
