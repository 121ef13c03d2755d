/-
# The dynamic relocations of a section

For each relocation of a section that is loaded, the layout decides whether it needs an entry in one
of the dynamic relocation tables, from the flags that its symbol has by then and its offset in the
input; the writer decides again, from the final flags and the final address.  Where the two agree is
`relocation_accounting_iff`.  They do not agree on packed relocations in a section that starts at an
odd address (`odd_section_unbalanced`).

Relaxations are given by the kind of the relocation that they leave at the layout and in the writer.
The writer takes `.eh_frame` to be read-only whatever its flags are, so whether a section is writable
is also given twice.
-/
import Srs.Dynamic.Resolutions

namespace Srs.Dynamic

open Option ValueFlags

/-! ## 1. The layout -/

structure LayoutEnv where
  kind : OutputKind
  relrEnabled : Bool
  copyRelocationsAllowed : Bool
  deriving DecidableEq

/-- A relocation's offset in its section, and what is known of the section. -/
structure RelocationSite where
  offset : Nat
  isAlloc : Bool
  isWritable : Bool
  /-- Set for the frames of `.eh_frame`. -/
  isDebugSection : Bool
  deriving DecidableEq

/-- The case analysis of `process_relocation`: the entries that are allocated and the flags to add;
`none` where it reports an error -/
def allocateRelocation (env : LayoutEnv) (site : RelocationSite) (k : RelocationKind)
    (flags : ValueFlags) : Option (Parts × ValueFlags) :=
  let flagsToAdd := resolutionFlags k
  if !site.isAlloc then some (0, flagsToAdd)
  else if k.isTls then some (0, flagsToAdd)
  else if flagsToAdd.direct && flags.isInterposable then
    if site.isWritable then some (.generalRela, flagsToAdd)
    else if flags.function then
      -- a PLT entry is referred to instead
      some (0, { flagsToAdd with direct := false, plt := true, got := true })
    else if !flags.absolute then
      if env.copyRelocationsAllowed then some (0, { flagsToAdd with copyRelocation := true })
      else none
    else some (0, flagsToAdd)
  else if flags.ifunc && k == .absolute && site.isWritable && env.kind.isRelocatable then
    some (.generalRela, flagsToAdd)
  else if env.kind.isRelocatable && k == .absolute && flags.isAddress then
    if site.isWritable then
      if env.relrEnabled && site.offset % 2 == 0 then some (.relr, flagsToAdd)
      else some (.relativeRela, flagsToAdd)
    else if !site.isDebugSection then none
    else some (0, flagsToAdd)
  else some (0, flagsToAdd)

/-- What else is needed of an ifunc. -/
def addIfuncFlags (kind : OutputKind) (flags flagsToAdd : ValueFlags) : ValueFlags :=
  if flags.ifunc then
    { flagsToAdd with
      got := flagsToAdd.got || !kind.isStaticExecutable
      plt := flagsToAdd.plt || !kind.isStaticExecutable
      ifuncGotForAddress :=
        flagsToAdd.ifuncGotForAddress || (flagsToAdd.got && !kind.isRelocatable) }
  else flagsToAdd

/-- `process_relocation` for a symbol with some flags so far, referred to by a local symbol: the
entries that are allocated and the flags afterwards -/
def processRelocation (env : LayoutEnv) (site : RelocationSite) (k : RelocationKind)
    (symbolFlags localFlags : ValueFlags) : Option (Parts × ValueFlags) :=
  let flags := symbolFlags.merge localFlags
  (allocateRelocation env site k flags).map fun (parts, flagsToAdd) =>
    let after := symbolFlags.union (addIfuncFlags env.kind flags flagsToAdd)
    (parts,
      if !symbolFlags.hasResolution && flags.ifunc && env.kind.isStaticExecutable then
        { after with got := true, plt := true }
      else after)

/-! ## 2. The writer -/

/-- `write_absolute_relocation`: the entries it takes.  `value` is the value with the addend, where
there is one -/
def writeAbsoluteRelocation (env : WriterEnv) (isAlloc isWritable : Bool) (place : Nat)
    (flags : ValueFlags) (dynamicSymbolIndex value : Option Nat) : Option Parts :=
  if !isAlloc then value.map fun _ => 0
  else if flags.dynamic && flags.absolute && !isWritable then some 0
  else if flags.isInterposable && isWritable then
    dynamicSymbolIndex.map fun _ => .generalRela
  else if flags.ifunc && isWritable && env.kind.isRelocatable then some .generalRela
  else if env.kind.isRelocatable && !flags.absolute then
    value.map fun _ => writeAddressRelocation env place
  else value.map fun _ => 0

/-- `apply_relocation`: only absolute relocations take entries -/
def applyRelocation (env : WriterEnv) (isAlloc isWritable : Bool) (place : Nat)
    (k : RelocationKind) (flags : ValueFlags) (dynamicSymbolIndex value : Option Nat) :
    Option Parts :=
  if k = .absolute then
    writeAbsoluteRelocation env isAlloc isWritable place flags dynamicSymbolIndex value
  else some 0

/-! ## 3. Flags over time -/

/-- What can become of the flags of a symbol after a relocation was processed: more may be needed of
it, and it may turn out to be absolute. -/
structure ValueFlags.Extends (before after : ValueFlags) : Prop where
  dynamic : after.dynamic = before.dynamic
  ifunc : after.ifunc = before.ifunc
  nonInterposable : after.nonInterposable = before.nonInterposable
  absolute : before.absolute = true → after.absolute = true

theorem ValueFlags.Extends.trans {a b c : ValueFlags} (hab : a.Extends b) (hbc : b.Extends c) :
    a.Extends c where
  dynamic := hbc.dynamic.trans hab.dynamic
  ifunc := hbc.ifunc.trans hab.ifunc
  nonInterposable := hbc.nonInterposable.trans hab.nonInterposable
  absolute h := hbc.absolute (hab.absolute h)

theorem ValueFlags.Extends.merge {a b : ValueFlags} (h : a.Extends b) (localFlags : ValueFlags) :
    (a.merge localFlags).Extends (b.merge localFlags) where
  dynamic := h.dynamic
  ifunc := h.ifunc
  nonInterposable := congrArg (· || localFlags.nonInterposable) h.nonInterposable
  absolute := h.absolute

/-- What a relocation adds does not change what the symbol is. -/
structure ValueFlags.OnlyNeeds (f : ValueFlags) : Prop where
  dynamic : f.dynamic = false
  ifunc : f.ifunc = false
  nonInterposable : f.nonInterposable = false

theorem resolutionFlags_onlyNeeds (k : RelocationKind) : (resolutionFlags k).OnlyNeeds := by
  cases k <;> exact ⟨rfl, rfl, rfl⟩

variable {parts : Parts}

theorem allocateRelocation_onlyNeeds {env : LayoutEnv} {site : RelocationSite}
    {k : RelocationKind} {flags flagsToAdd : ValueFlags}
    (h : allocateRelocation env site k flags = some (parts, flagsToAdd)) :
    flagsToAdd.OnlyNeeds := by
  obtain ⟨hdynamic, hifunc, hnon⟩ := resolutionFlags_onlyNeeds k
  unfold allocateRelocation at h
  simp only at h
  repeat' split at h
  all_goals first
    | contradiction
    | (obtain ⟨-, rfl⟩ := Prod.mk.inj (some.inj h)
       exact ⟨hdynamic, hifunc, hnon⟩)

theorem addIfuncFlags_onlyNeeds (kind : OutputKind) (flags : ValueFlags)
    {flagsToAdd : ValueFlags} (h : flagsToAdd.OnlyNeeds) : (addIfuncFlags kind flags flagsToAdd).OnlyNeeds := by
  unfold addIfuncFlags
  split
  · exact ⟨h.dynamic, h.ifunc, h.nonInterposable⟩
  · exact h

theorem extends_union (flags : ValueFlags) {added : ValueFlags} (h : added.OnlyNeeds) :
    flags.Extends (flags.union added) where
  dynamic := by rw [union, h.dynamic, Bool.or_false]
  ifunc := by rw [union, h.ifunc, Bool.or_false]
  nonInterposable := by rw [union, h.nonInterposable, Bool.or_false]
  absolute habs := by rw [union, habs, Bool.true_or]

/-- **A relocation extends the flags of its symbol.** -/
theorem processRelocation_extends {env : LayoutEnv} {site : RelocationSite} {k : RelocationKind}
    {symbolFlags localFlags after : ValueFlags}
    (h : processRelocation env site k symbolFlags localFlags = some (parts, after)) :
    symbolFlags.Extends after := by
  obtain ⟨⟨parts', flagsToAdd⟩, halloc, heq⟩ := map_eq_some_iff.mp h
  obtain ⟨-, rfl⟩ := Prod.mk.inj heq
  have hunion := extends_union symbolFlags
    (addIfuncFlags_onlyNeeds env.kind (symbolFlags.merge localFlags)
      (allocateRelocation_onlyNeeds halloc))
  split
  · exact ⟨hunion.dynamic, hunion.ifunc, hunion.nonInterposable, hunion.absolute⟩
  · exact hunion

/-! ## 4. What is allocated, and what is taken -/

/-- A direct relocation to a symbol that may be overridden. -/
def isOverridable (k : RelocationKind) (flags : ValueFlags) : Bool :=
  !k.isTls && (resolutionFlags k).direct && flags.isInterposable

section

variable {env : LayoutEnv} {writer : WriterEnv} {site : RelocationSite} {place : Nat}
  {k written : RelocationKind} {flags after flagsToAdd : ValueFlags} {isWritable : Bool}
  {dynamicSymbolIndex value : Option Nat} {allocated taken : Parts}

theorem allocate_overridable (halloc : site.isAlloc = true) (ho : isOverridable k flags = true)
    (h : allocateRelocation env site k flags = some (allocated, flagsToAdd)) :
    allocated = if site.isWritable then .generalRela else 0 := by
  simp only [isOverridable, Bool.and_eq_true, Bool.not_eq_true'] at ho
  obtain ⟨⟨htls, hdirect⟩, hi⟩ := ho
  unfold allocateRelocation at h
  simp only [halloc, htls, hdirect, hi, Bool.not_true, Bool.false_eq_true, if_false, Bool.and_self,
    if_true] at h
  cases hw : site.isWritable with
  | true =>
    rw [hw, if_pos rfl] at h
    exact (Prod.mk.inj (some.inj h)).1.symm
  | false =>
    rw [hw, if_neg Bool.false_ne_true] at h
    repeat' split at h
    all_goals first
      | contradiction
      | exact (Prod.mk.inj (some.inj h)).1.symm

/-- What is allocated for an absolute relocation to a final symbol: an ifunc, an address, or
neither. -/
theorem allocate_final (halloc : site.isAlloc = true) (hi : flags.isInterposable = false)
    (h : allocateRelocation env site .absolute flags = some (allocated, flagsToAdd)) :
    allocated = if env.kind.isRelocatable && site.isWritable then
        if flags.ifunc then .generalRela
        else if flags.isAddress then
          if env.relrEnabled && site.offset % 2 == 0 then .relr else .relativeRela
        else 0
      else 0 := by
  unfold allocateRelocation at h
  simp only [halloc, hi, RelocationKind.isTls, Bool.not_true, Bool.false_eq_true, if_false,
    Bool.and_false, beq_self_eq_true, Bool.and_true] at h
  cases hr : env.kind.isRelocatable with
  | false =>
    simp only [hr, Bool.and_false, Bool.false_and, Bool.false_eq_true, if_false] at h
    exact (Prod.mk.inj (some.inj h)).1.symm
  | true =>
    cases hw : site.isWritable with
    | false =>
      simp only [hr, hw, Bool.and_false, Bool.false_and, Bool.true_and, Bool.false_eq_true,
        if_false] at h
      repeat' split at h
      all_goals first
        | contradiction
        | exact (Prod.mk.inj (some.inj h)).1.symm
    | true =>
      cases hf : flags.ifunc with
      | true =>
        simp only [hr, hw, hf, Bool.and_self, if_true] at h
        exact (Prod.mk.inj (some.inj h)).1.symm
      | false =>
        simp only [hr, hw, hf, Bool.false_and, Bool.true_and, Bool.false_eq_true, if_false,
          if_true] at h
        cases ha : flags.isAddress with
        | false =>
          rw [ha] at h
          exact (Prod.mk.inj (some.inj h)).1.symm
        | true =>
          rw [ha, if_pos rfl] at h
          simp only [Bool.true_and, Bool.false_eq_true, if_false, if_true]
          split at h
          · next hp =>
            rw [hp]
            exact (Prod.mk.inj (some.inj h)).1.symm
          · next hp =>
            rw [Bool.eq_false_iff.mpr hp]
            exact (Prod.mk.inj (some.inj h)).1.symm

/-- Nothing is allocated for other relocations. -/
theorem allocate_other (hk : k ≠ .absolute) (ho : isOverridable k flags = false)
    (h : allocateRelocation env site k flags = some (allocated, flagsToAdd)) : allocated = 0 := by
  have hbeq : (k == .absolute) = false := beq_eq_false_iff_ne.mpr hk
  unfold allocateRelocation at h
  simp only [hbeq, Bool.and_false, Bool.false_and, Bool.false_eq_true, if_false] at h
  split at h
  · exact (Prod.mk.inj (some.inj h)).1.symm
  · split at h
    · exact (Prod.mk.inj (some.inj h)).1.symm
    · next htls =>
      rw [isOverridable, Bool.eq_false_iff.mpr htls, Bool.not_false, Bool.true_and] at ho
      rw [ho, if_neg Bool.false_ne_true] at h
      exact (Prod.mk.inj (some.inj h)).1.symm

/-- What the writer takes for an absolute relocation. -/
theorem written_absolute (hext : flags.Extends after)
    (h : writeAbsoluteRelocation writer true isWritable place after dynamicSymbolIndex value
      = some taken) :
    taken = if flags.isInterposable && isWritable then .generalRela
      else if flags.ifunc && isWritable && writer.kind.isRelocatable then .generalRela
      else if writer.kind.isRelocatable && !after.absolute then writeAddressRelocation writer place
      else 0 := by
  have hi : after.isInterposable = flags.isInterposable := by
    rw [isInterposable, hext.nonInterposable, isInterposable]
  unfold writeAbsoluteRelocation at h
  rw [hi, hext.ifunc, Bool.not_true, if_neg Bool.false_ne_true] at h
  split at h
  · next hzero =>
    -- a weak reference from a read-only section
    simp only [Bool.and_eq_true, Bool.not_eq_true'] at hzero
    obtain ⟨⟨-, habs⟩, hw⟩ := hzero
    rw [hw, habs, Bool.and_false, Bool.and_false, Bool.false_and, Bool.not_true, Bool.and_false]
    exact (some.inj h).symm
  · split at h
    · next hboth =>
      rw [if_pos hboth]
      obtain ⟨i, -, rfl⟩ := map_eq_some_iff.mp h
      rfl
    · next hboth =>
      rw [if_neg hboth]
      split at h
      · next hifunc =>
        rw [if_pos hifunc]
        exact (some.inj h).symm
      · next hifunc =>
        rw [if_neg hifunc]
        split at h
        · next hrel =>
          rw [if_pos hrel]
          obtain ⟨v, -, rfl⟩ := map_eq_some_iff.mp h
          rfl
        · next hrel =>
          rw [if_neg hrel]
          obtain ⟨v, -, rfl⟩ := map_eq_some_iff.mp h
          rfl

/-! ## 5. Where the two agree -/

/-- The relocations for which the writer takes what the layout allocated: `k` is the kind at the
layout and `written` in the writer, `isWritable` is the writer's view of the section and `after` are
the flags there. -/
structure RelocationBalanced (env : WriterEnv) (relrEnabled : Bool) (site : RelocationSite)
    (isWritable : Bool) (place : Nat) (k written : RelocationKind) (flags after : ValueFlags) :
    Prop where
  /-- Only absolute relocations refer to symbols that may be overridden from where they can be
  relocated. -/
  direct : written ≠ .absolute → isOverridable k flags = true → site.isWritable = false
  /-- No relocation that needs an entry is relaxed away. -/
  relaxed : written ≠ .absolute → k = .absolute → flags.isInterposable = false →
    site.isWritable = true → env.kind.isRelocatable = true →
    flags.ifunc = false ∧ flags.isAddress = false
  /-- What may be overridden is relocated when it is loaded, where that is possible. -/
  overridable : written = .absolute → isOverridable k flags = true →
    isWritable = site.isWritable ∧
      (isWritable = false → env.kind.isRelocatable = true → after.absolute = true)
  ifunc : written = .absolute → k = .absolute → flags.isInterposable = false →
    env.kind.isRelocatable = true → flags.ifunc = true →
    isWritable = site.isWritable ∧ (isWritable = false → after.absolute = true)
  /-- An address stays one, and the place is even where the offset is. -/
  address : written = .absolute → k = .absolute → flags.isInterposable = false →
    env.kind.isRelocatable = true → flags.isAddress = true → site.isWritable = true →
    after.absolute = false ∧
      (relrEnabled && site.offset % 2 == 0) = (env.relrDyn && place % 2 == 0)
  /-- Everything else is absolute: in particular, there are no symbols of shared objects. -/
  absolute : written = .absolute → k = .absolute → flags.isInterposable = false →
    env.kind.isRelocatable = true → flags.ifunc = false →
    (flags.isAddress && site.isWritable) = false → after.absolute = true
  /-- No relocation that needs an entry appears in the writer. -/
  appeared : written = .absolute → k ≠ .absolute → isOverridable k flags = false →
    (flags.isInterposable = true → isWritable = false) ∧
      (env.kind.isRelocatable = true → after.absolute = true ∧
        (flags.ifunc = true → isWritable = false))

theorem zero_ne_generalRela : (0 : Parts) ≠ .generalRela := by
  decide

theorem writeAddressRelocation_ne_zero (writer : WriterEnv) (place : Nat) :
    writeAddressRelocation writer place ≠ 0 := by
  unfold writeAddressRelocation
  split
  · decide
  · decide

theorem writeAddressRelocation_ne_generalRela (writer : WriterEnv) (place : Nat) :
    Parts.generalRela ≠ writeAddressRelocation writer place := by
  unfold writeAddressRelocation
  split
  · decide
  · decide

/-- Packing at the layout and in the writer. -/
theorem packed_eq_iff (writer : WriterEnv) (place : Nat) (packed : Bool) :
    (if packed then Parts.relr else .relativeRela) = writeAddressRelocation writer place ↔
      packed = (writer.relrDyn && place % 2 == 0) := by
  unfold writeAddressRelocation
  cases packed with
  | false =>
    cases writer.relrDyn && place % 2 == 0 with
    | false => simp
    | true => exact ⟨fun h => absurd h (by decide), nofun⟩
  | true =>
    cases writer.relrDyn && place % 2 == 0 with
    | false => exact ⟨fun h => absurd h (by decide), nofun⟩
    | true => simp

/-- An address relocation that may be taken where none was allocated. -/
theorem zero_eq_address_iff (writer : WriterEnv) (place : Nat) (relocatable absolute : Bool) :
    0 = (if relocatable && !absolute then writeAddressRelocation writer place else 0) ↔
      (relocatable = true → absolute = true) := by
  cases relocatable with
  | false => simp
  | true =>
    cases absolute with
    | false =>
      exact ⟨fun h => absurd h.symm (writeAddressRelocation_ne_zero writer place),
        fun h => absurd (h rfl) nofun⟩
    | true => simp

/-- A general entry that was allocated, where an address relocation may be taken. -/
theorem generalRela_ne_address (writer : WriterEnv) (place : Nat) (b : Bool) :
    Parts.generalRela ≠ if b then writeAddressRelocation writer place else 0 := by
  cases b with
  | false =>
    rw [if_neg Bool.false_ne_true]
    decide
  | true => exact writeAddressRelocation_ne_generalRela writer place

section

variable (halloc : site.isAlloc = true)
include halloc

/-- Both sides for a symbol that may be overridden. -/
theorem overridable_agree_iff (hext : flags.Extends after)
    (ho : isOverridable k flags = true)
    (hlayout : allocateRelocation env site k flags = some (allocated, flagsToAdd))
    (hwriter : writeAbsoluteRelocation writer true isWritable place after dynamicSymbolIndex value
      = some taken) :
    allocated = taken ↔ isWritable = site.isWritable ∧
      (isWritable = false → writer.kind.isRelocatable = true → after.absolute = true) := by
  have hi : flags.isInterposable = true := by
    rw [isOverridable, Bool.and_eq_true] at ho
    exact ho.2
  rw [allocate_overridable halloc ho hlayout, written_absolute hext hwriter, hi]
  cases isWritable with
  | true =>
    cases site.isWritable with
    | true => simp
    | false => exact ⟨fun h => absurd h zero_ne_generalRela, fun h => absurd h.1 nofun⟩
  | false =>
    simp only [Bool.and_false, Bool.false_and, Bool.false_eq_true, if_false, forall_const]
    cases site.isWritable with
    | true =>
      exact ⟨fun h => absurd h (generalRela_ne_address writer place _), fun h => absurd h.1 nofun⟩
    | false =>
      rw [if_neg Bool.false_ne_true, zero_eq_address_iff]
      exact ⟨fun h => ⟨rfl, h⟩, fun h => h.2⟩

/-- Both sides for an ifunc. -/
theorem ifunc_agree_iff (hkind : writer.kind = env.kind)
    (hext : flags.Extends after) (hi : flags.isInterposable = false) (hf : flags.ifunc = true)
    (hr : writer.kind.isRelocatable = true)
    (hlayout : allocateRelocation env site .absolute flags = some (allocated, flagsToAdd))
    (hwriter : writeAbsoluteRelocation writer true isWritable place after dynamicSymbolIndex value
      = some taken) :
    allocated = taken ↔
      isWritable = site.isWritable ∧ (isWritable = false → after.absolute = true) := by
  rw [allocate_final halloc hi hlayout, written_absolute hext hwriter, hi, hf, ← hkind, hr]
  simp only [Bool.false_and, Bool.true_and, Bool.and_true, Bool.false_eq_true, if_false, if_true]
  cases isWritable with
  | true =>
    cases site.isWritable with
    | true => simp
    | false => exact ⟨fun h => absurd h zero_ne_generalRela, fun h => absurd h.1 nofun⟩
  | false =>
    cases site.isWritable with
    | true =>
      exact ⟨fun h => absurd h (generalRela_ne_address writer place _), fun h => absurd h.1 nofun⟩
    | false =>
      have h := zero_eq_address_iff writer place true after.absolute
      simp only [Bool.true_and, forall_const] at h
      simp only [Bool.false_eq_true, if_false, forall_const, true_and]
      exact h

/-- Both sides for a symbol that is neither overridden nor an ifunc. -/
theorem plain_agree_iff (hkind : writer.kind = env.kind)
    (hext : flags.Extends after) (hi : flags.isInterposable = false) (hf : flags.ifunc = false)
    (hr : writer.kind.isRelocatable = true)
    (hlayout : allocateRelocation env site .absolute flags = some (allocated, flagsToAdd))
    (hwriter : writeAbsoluteRelocation writer true isWritable place after dynamicSymbolIndex value
      = some taken) :
    allocated = taken ↔
      if flags.isAddress && site.isWritable then after.absolute = false ∧
        (env.relrEnabled && site.offset % 2 == 0) = (writer.relrDyn && place % 2 == 0)
      else after.absolute = true := by
  rw [allocate_final halloc hi hlayout, written_absolute hext hwriter, hi, hf, ← hkind, hr]
  simp only [Bool.false_and, Bool.true_and, Bool.false_eq_true, if_false]
  have hzero := zero_eq_address_iff writer place true after.absolute
  simp only [Bool.true_and, forall_const] at hzero
  cases site.isWritable with
  | false =>
    rw [if_neg Bool.false_ne_true, Bool.and_false, if_neg Bool.false_ne_true]
    exact hzero
  | true =>
    cases flags.isAddress with
    | false => exact hzero
    | true =>
      simp only [Bool.and_self, if_true]
      cases after.absolute with
      | false =>
        simp only [Bool.not_false, if_true, true_and]
        exact packed_eq_iff writer place _
      | true =>
        refine ⟨fun h => absurd h ?_, fun h => absurd h.1 nofun⟩
        rw [Bool.not_true, if_neg Bool.false_ne_true]
        cases env.relrEnabled && site.offset % 2 == 0 with
        | false => decide
        | true => decide

/-- Both sides for an absolute relocation to a final symbol. -/
theorem final_agree_iff (hkind : writer.kind = env.kind)
    (hext : flags.Extends after) (hi : flags.isInterposable = false)
    (hlayout : allocateRelocation env site .absolute flags = some (allocated, flagsToAdd))
    (hwriter : writeAbsoluteRelocation writer true isWritable place after dynamicSymbolIndex value
      = some taken) :
    allocated = taken ↔
      (writer.kind.isRelocatable = true → flags.ifunc = true →
        isWritable = site.isWritable ∧ (isWritable = false → after.absolute = true)) ∧
      (writer.kind.isRelocatable = true → flags.isAddress = true → site.isWritable = true →
        after.absolute = false ∧
          (env.relrEnabled && site.offset % 2 == 0) = (writer.relrDyn && place % 2 == 0)) ∧
      (writer.kind.isRelocatable = true → flags.ifunc = false →
        (flags.isAddress && site.isWritable) = false → after.absolute = true) := by
  cases hr : writer.kind.isRelocatable with
  | false =>
    rw [allocate_final halloc hi hlayout, written_absolute hext hwriter, hi, ← hkind, hr]
    simp
  | true =>
    cases hf : flags.ifunc with
    | true =>
      have ha : flags.isAddress = false := by
        rw [isAddress, hf]
        rfl
      rw [ifunc_agree_iff halloc hkind hext hi hf hr hlayout hwriter, ha]
      constructor
      · intro h
        exact ⟨fun _ _ => h, by simp, by simp⟩
      · intro h
        exact h.1 rfl rfl
    | false =>
      rw [plain_agree_iff halloc hkind hext hi hf hr hlayout hwriter]
      cases hboth : flags.isAddress && site.isWritable with
      | true =>
        rw [Bool.and_eq_true] at hboth
        rw [if_pos rfl, hboth.1, hboth.2]
        constructor
        · intro h
          exact ⟨by simp, fun _ _ _ => h, by simp⟩
        · intro h
          exact h.2.1 rfl rfl rfl
      | false =>
        rw [if_neg Bool.false_ne_true]
        constructor
        · intro h
          refine ⟨by simp, fun _ ha hw => ?_, fun _ _ _ => h⟩
          rw [ha, hw] at hboth
          contradiction
        · intro h
          exact h.2.2 rfl rfl rfl

end

/-- Both sides for a relocation that turns absolute in the writer. -/
theorem appeared_agree_iff (hext : flags.Extends after)
    (hk : k ≠ .absolute) (ho : isOverridable k flags = false)
    (hlayout : allocateRelocation env site k flags = some (allocated, flagsToAdd))
    (hwriter : writeAbsoluteRelocation writer true isWritable place after dynamicSymbolIndex value
      = some taken) :
    allocated = taken ↔ (flags.isInterposable = true → isWritable = false) ∧
      (writer.kind.isRelocatable = true → after.absolute = true ∧
        (flags.ifunc = true → isWritable = false)) := by
  rw [allocate_other hk ho hlayout, written_absolute hext hwriter]
  cases isWritable with
  | false =>
    simp only [Bool.and_false, Bool.false_and, Bool.false_eq_true, if_false, implies_true, true_and,
      and_true]
    exact zero_eq_address_iff writer place _ _
  | true =>
    cases flags.isInterposable with
    | true => exact ⟨fun h => absurd h zero_ne_generalRela, fun h => absurd (h.1 rfl) nofun⟩
    | false =>
      cases hf : flags.ifunc with
      | false =>
        simp only [Bool.false_and, Bool.false_eq_true, if_false, false_implies, true_and, and_true]
        exact zero_eq_address_iff writer place _ _
      | true =>
        cases writer.kind.isRelocatable with
        | true =>
          exact ⟨fun h => absurd h zero_ne_generalRela, fun h => absurd ((h.2 rfl).2 rfl) nofun⟩
        | false => simp

/-- Both sides for a relocation that is not absolute when it is written. -/
theorem relative_agree_iff (halloc : site.isAlloc = true)
    (hlayout : allocateRelocation env site k flags = some (allocated, flagsToAdd)) :
    allocated = 0 ↔
      (isOverridable k flags = true → site.isWritable = false) ∧
      (k = .absolute → flags.isInterposable = false → site.isWritable = true →
        env.kind.isRelocatable = true → flags.ifunc = false ∧ flags.isAddress = false) := by
  cases ho : isOverridable k flags with
  | true =>
    have hi : flags.isInterposable = true := by
      rw [isOverridable, Bool.and_eq_true] at ho
      exact ho.2
    rw [allocate_overridable halloc ho hlayout, hi]
    cases site.isWritable with
    | true => exact ⟨fun h => absurd h (by decide), fun h => absurd (h.1 rfl) nofun⟩
    | false => simp
  | false =>
    by_cases hk : k = .absolute
    · subst hk
      have hi : flags.isInterposable = false := ho
      rw [allocate_final halloc hi hlayout, hi]
      cases site.isWritable with
      | false => simp
      | true =>
        cases env.kind.isRelocatable with
        | false => simp
        | true =>
          cases flags.ifunc with
          | true =>
            rw [Bool.and_self, if_pos rfl, if_pos rfl]
            exact ⟨fun h => absurd h (by decide), fun h => absurd (h.2 rfl rfl rfl rfl).1 nofun⟩
          | false =>
            cases flags.isAddress with
            | false => simp
            | true =>
              refine ⟨fun h => absurd h ?_, fun h => absurd (h.2 rfl rfl rfl rfl).2 nofun⟩
              cases env.relrEnabled && site.offset % 2 == 0 with
              | false => decide
              | true => decide
    · rw [allocate_other hk ho hlayout]
      exact ⟨fun _ => ⟨nofun, fun h => absurd h hk⟩, fun _ => rfl⟩

theorem allocate_agree_iff (halloc : site.isAlloc = true) (hkind : writer.kind = env.kind)
    (hext : flags.Extends after)
    (hlayout : allocateRelocation env site k flags = some (allocated, flagsToAdd))
    (hwriter : applyRelocation writer site.isAlloc isWritable place written after
      dynamicSymbolIndex value = some taken) :
    allocated = taken ↔
      RelocationBalanced writer env.relrEnabled site isWritable place k written flags after := by
  rw [applyRelocation, halloc] at hwriter
  by_cases hwritten : written = .absolute
  · rw [if_pos hwritten] at hwriter
    cases ho : isOverridable k flags with
    | true =>
      rw [overridable_agree_iff halloc hext ho hlayout hwriter]
      have hi : flags.isInterposable = true := by
        rw [isOverridable, Bool.and_eq_true] at ho
        exact ho.2
      constructor
      · intro h
        exact
          { direct := fun hne => absurd hwritten hne
            relaxed := fun hne => absurd hwritten hne
            overridable := fun _ _ => h
            ifunc := fun _ _ hni => by rw [hi] at hni; contradiction
            address := fun _ _ hni => by rw [hi] at hni; contradiction
            absolute := fun _ _ hni => by rw [hi] at hni; contradiction
            appeared := fun _ _ hno => by rw [ho] at hno; contradiction }
      · intro h
        exact h.overridable hwritten ho
    | false =>
      by_cases hk : k = .absolute
      · subst hk
        rw [final_agree_iff halloc hkind hext ho hlayout hwriter]
        constructor
        · intro h
          exact
            { direct := fun hne => absurd hwritten hne
              relaxed := fun hne => absurd hwritten hne
              overridable := fun _ hno => by rw [ho] at hno; contradiction
              ifunc := fun _ _ _ => h.1
              address := fun _ _ _ => h.2.1
              absolute := fun _ _ _ => h.2.2
              appeared := fun _ hne => absurd rfl hne }
        · intro h
          exact ⟨h.ifunc hwritten rfl ho, h.address hwritten rfl ho, h.absolute hwritten rfl ho⟩
      · rw [appeared_agree_iff hext hk ho hlayout hwriter]
        constructor
        · intro h
          exact
            { direct := fun hne => absurd hwritten hne
              relaxed := fun hne => absurd hwritten hne
              overridable := fun _ hno => by rw [ho] at hno; contradiction
              ifunc := fun _ heq => absurd heq hk
              address := fun _ heq => absurd heq hk
              absolute := fun _ heq => absurd heq hk
              appeared := fun _ _ _ => h }
        · intro h
          exact h.appeared hwritten hk ho
  · rw [if_neg hwritten] at hwriter
    cases hwriter
    rw [relative_agree_iff halloc hlayout, ← hkind]
    constructor
    · intro h
      exact
        { direct := fun _ => h.1
          relaxed := fun _ => h.2
          overridable := fun heq => absurd heq hwritten
          ifunc := fun heq => absurd heq hwritten
          address := fun heq => absurd heq hwritten
          absolute := fun heq => absurd heq hwritten
          appeared := fun heq => absurd heq hwritten }
    · intro h
      exact ⟨h.direct hwritten, h.relaxed hwritten⟩

/-- **The layout allocates what the writer takes, for the balanced relocations and no others.**  The
flags in the writer extend those that the relocation left. -/
theorem relocation_accounting_iff {symbolFlags localFlags flagsThen : ValueFlags}
    (halloc : site.isAlloc = true) (hkind : writer.kind = env.kind)
    (hlayout : processRelocation env site k symbolFlags localFlags = some (allocated, flagsThen))
    (hext : (flagsThen.merge localFlags).Extends after)
    (hwriter : applyRelocation writer site.isAlloc isWritable place written after
      dynamicSymbolIndex value = some taken) :
    allocated = taken ↔
      RelocationBalanced writer env.relrEnabled site isWritable place k written
        (symbolFlags.merge localFlags) after := by
  have hextAll : (symbolFlags.merge localFlags).Extends after :=
    ((processRelocation_extends hlayout).merge localFlags).trans hext
  obtain ⟨⟨parts, flagsToAdd⟩, hallocated, heq⟩ := map_eq_some_iff.mp hlayout
  obtain ⟨rfl, -⟩ := Prod.mk.inj heq
  exact allocate_agree_iff halloc hkind hextAll hallocated hwriter

end

/-- An aligned pointer to a local symbol in the data of a position-independent executable. -/
theorem aligned_pointer_closes :
    processRelocation ⟨.dynamicExecutable .relocatable, true, true⟩ ⟨8, true, true, false⟩ .absolute
        { nonInterposable := true } {}
      = some (.relr, { nonInterposable := true, direct := true }) ∧
    applyRelocation ⟨.dynamicExecutable .relocatable, true, 0, 0⟩ true true 0x4008 .absolute
        { nonInterposable := true, direct := true } none (some 0x1000) = some .relr ∧
    RelocationBalanced ⟨.dynamicExecutable .relocatable, true, 0, 0⟩ true ⟨8, true, true, false⟩ true
      0x4008 .absolute .absolute { nonInterposable := true }
      { nonInterposable := true, direct := true } := by
  have hlayout : processRelocation ⟨.dynamicExecutable .relocatable, true, true⟩
      ⟨8, true, true, false⟩ .absolute { nonInterposable := true } {}
      = some (.relr, { nonInterposable := true, direct := true }) := rfl
  have hwriter : applyRelocation ⟨.dynamicExecutable .relocatable, true, 0, 0⟩ true true 0x4008
      .absolute { nonInterposable := true, direct := true } none (some 0x1000) = some .relr := rfl
  exact ⟨hlayout, hwriter,
    (relocation_accounting_iff rfl rfl hlayout ⟨rfl, rfl, rfl, id⟩ hwriter).mp rfl⟩

/-- The same pointer at the start of a section whose address is odd: the layout allocates a packed
relocation, and the writer takes one that is not. -/
theorem odd_section_unbalanced :
    ∃ parts taken flagsThen,
      processRelocation ⟨.dynamicExecutable .relocatable, true, true⟩ ⟨0, true, true, false⟩
        .absolute { nonInterposable := true } {} = some (parts, flagsThen) ∧
      applyRelocation ⟨.dynamicExecutable .relocatable, true, 0, 0⟩ true true 0x4001 .absolute
        flagsThen none (some 0x1000) = some taken ∧
      parts.relrDyn ≠ taken.relrDyn ∧ parts.relaDynRelative ≠ taken.relaDynRelative :=
  ⟨.relr, .relativeRela, { nonInterposable := true, direct := true }, rfl, rfl, by decide,
    by decide⟩

end Srs.Dynamic
