/-
# Output kinds, value flags and relocation kinds

What kind of file is linked decides which dynamic tables it has.  The flags of a symbol say what it
is and, as the relocations are processed, what is needed of it (`resolutionFlags`).
-/
import Mathlib.Data.UInt

namespace Srs.Dynamic

/-! ## 1. Output kinds -/

inductive RelocationModel where
  | nonRelocatable
  | relocatable
  deriving DecidableEq

inductive OutputKind where
  | staticExecutable (model : RelocationModel)
  | dynamicExecutable (model : RelocationModel)
  | sharedObject
  | relocatable
  deriving DecidableEq

namespace OutputKind

def isExecutable : OutputKind → Bool
  | staticExecutable _ | dynamicExecutable _ => true
  | sharedObject | relocatable => false

def isSharedObject : OutputKind → Bool
  | sharedObject => true
  | _ => false

def isPartialObject : OutputKind → Bool
  | relocatable => true
  | _ => false

def isStaticExecutable : OutputKind → Bool
  | staticExecutable _ => true
  | _ => false

def isRelocatable : OutputKind → Bool
  | staticExecutable .relocatable | dynamicExecutable .relocatable => true
  | sharedObject | relocatable => true
  | _ => false

def needsDynsym : OutputKind → Bool
  | dynamicExecutable _ | sharedObject | staticExecutable .relocatable => true
  | _ => false

def shouldOutputSymbolVersions : OutputKind → Bool
  | dynamicExecutable _ | sharedObject => true
  | _ => false

theorem needsDynsym_of_versions {k : OutputKind} (h : k.shouldOutputSymbolVersions = true) :
    k.needsDynsym = true := by
  cases k with
  | staticExecutable _ => exact Bool.noConfusion h
  | dynamicExecutable _ => rfl
  | sharedObject => rfl
  | relocatable => exact Bool.noConfusion h

end OutputKind

/-! ## 2. Value flags -/

/-- `ValueFlags`, one field a bit -/
structure ValueFlags where
  absolute : Bool := false
  dynamic : Bool := false
  ifunc : Bool := false
  nonInterposable : Bool := false
  downgradeToLocal : Bool := false
  function : Bool := false
  direct : Bool := false
  got : Bool := false
  plt : Bool := false
  gotTlsModule : Bool := false
  gotTlsOffset : Bool := false
  gotTlsDescriptor : Bool := false
  exportDynamic : Bool := false
  copyRelocation : Bool := false
  ifuncGotForAddress : Bool := false
  hasRangeLimitedRel : Bool := false
  deriving DecidableEq

namespace ValueFlags

def union (a b : ValueFlags) : ValueFlags where
  absolute := a.absolute || b.absolute
  dynamic := a.dynamic || b.dynamic
  ifunc := a.ifunc || b.ifunc
  nonInterposable := a.nonInterposable || b.nonInterposable
  downgradeToLocal := a.downgradeToLocal || b.downgradeToLocal
  function := a.function || b.function
  direct := a.direct || b.direct
  got := a.got || b.got
  plt := a.plt || b.plt
  gotTlsModule := a.gotTlsModule || b.gotTlsModule
  gotTlsOffset := a.gotTlsOffset || b.gotTlsOffset
  gotTlsDescriptor := a.gotTlsDescriptor || b.gotTlsDescriptor
  exportDynamic := a.exportDynamic || b.exportDynamic
  copyRelocation := a.copyRelocation || b.copyRelocation
  ifuncGotForAddress := a.ifuncGotForAddress || b.ifuncGotForAddress
  hasRangeLimitedRel := a.hasRangeLimitedRel || b.hasRangeLimitedRel

/-- The flags of a local symbol only add that the definition cannot be overridden. -/
def merge (flags other : ValueFlags) : ValueFlags :=
  { flags with nonInterposable := flags.nonInterposable || other.nonInterposable }

def hasResolution (f : ValueFlags) : Bool :=
  f.direct || f.got || f.plt || f.gotTlsModule || f.gotTlsOffset || f.gotTlsDescriptor ||
    f.exportDynamic || f.copyRelocation || f.ifuncGotForAddress

def isInterposable (f : ValueFlags) : Bool := !f.nonInterposable

/-- An address that is known at link time. -/
def isAddress (f : ValueFlags) : Bool := !f.ifunc && !f.dynamic && !f.absolute

def isTls (f : ValueFlags) : Bool := f.gotTlsOffset || f.gotTlsModule || f.gotTlsDescriptor

/-- `has_dynamic_symbol` of the places that allocate and write dynamic relocations -/
def hasDynamicSymbol (f : ValueFlags) : Bool := f.dynamic || (f.exportDynamic && f.isInterposable)

end ValueFlags

/-! ## 3. Relocation kinds -/

inductive RelocationKind where
  | absolute
  | absoluteSet
  | absoluteSetWord6
  | absoluteAddition
  | absoluteAdditionWord6
  | absoluteSubtraction
  | absoluteSubtractionWord6
  | absoluteLowPart
  | pairSubtractionUleb128 (expected : Nat)
  | relative
  | relativeLoongArchHigh
  | relativeRiscVLow12
  | symRelGotBase
  | gotRelGotBase
  | got
  | pltRelGotBase
  | pltRelative
  | gotRelative
  | gotRelativeLoongArch64
  | tlsGd
  | tlsGdGot
  | tlsGdGotBase
  | tlsLd
  | tlsLdGot
  | tlsLdGotBase
  | dtpOff
  | gotTpOff
  | gotTpOffLoongArch64
  | gotTpOffGot
  | gotTpOffGotBase
  | tpOff
  | tlsDesc
  | tlsDescLoongArch64
  | tlsDescGot
  | tlsDescGotBase
  | tlsDescCall
  | none
  | alignment
  deriving DecidableEq

def RelocationKind.isTls : RelocationKind → Bool
  | dtpOff | gotTpOff | gotTpOffGotBase | tlsDesc | tlsDescCall | tlsDescGot | tlsDescGotBase
  | tlsGd | tlsGdGot | tlsGdGotBase | tlsLd | tlsLdGot | tlsLdGotBase | tpOff => true
  | _ => false

/-- `layout::resolution_flags`: what a relocation needs of its symbol -/
def resolutionFlags : RelocationKind → ValueFlags
  | .pltRelative | .pltRelGotBase => { plt := true, got := true }
  | .got | .gotRelGotBase | .gotRelative | .gotRelativeLoongArch64 => { got := true }
  | .gotTpOff | .gotTpOffLoongArch64 | .gotTpOffGot | .gotTpOffGotBase => { gotTlsOffset := true }
  | .tlsGd | .tlsGdGot | .tlsGdGotBase => { gotTlsModule := true }
  | .tlsDesc | .tlsDescLoongArch64 | .tlsDescGot | .tlsDescGotBase | .tlsDescCall =>
    { gotTlsDescriptor := true }
  | .tlsLd | .tlsLdGot | .tlsLdGotBase => {}
  | .absolute | .absoluteSet | .absoluteSetWord6 | .absoluteAddition | .absoluteAdditionWord6
  | .absoluteSubtraction | .absoluteSubtractionWord6 | .relative | .relativeRiscVLow12
  | .relativeLoongArchHigh | .dtpOff | .tpOff | .symRelGotBase | .pairSubtractionUleb128 _ =>
    { direct := true }
  | .none | .absoluteLowPart | .alignment => {}

end Srs.Dynamic
