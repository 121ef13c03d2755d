/-
# Copy relocations

An executable that refers to data of a shared object directly gets a copy of the data in its own
`.bss`.  The requests come from the workers that scan relocations, in any order; a shared object
keeps them by address (`copy_relocate_symbol`).  When all have arrived, an address that only weak
symbols were requested for is given to a non-weak symbol, if the shared object has one there
(`select_copy_relocation_alternatives`).  Then space is allocated
(`allocate_for_copy_relocations`) and, in the order of the chosen symbols, addresses are assigned
(`assign_copy_relocation_addresses`).

The dynamic symbols of one shared object are numbered from 0 as in its symbol table, which leaves
out the base of their symbol ids.  A hash map is a list of entries with its keys in some order;
nothing depends on it.  Addresses and sizes are not bounded here.
-/
import Srs.Alignment
import Srs.Dynamic.Resolutions

namespace Srs.Dynamic

instance : DecidableEq Alignment := fun a b =>
  decidable_of_iff (a.exponent = b.exponent) (by cases a; cases b; simp)

/-- What is read of a symbol of a shared object. -/
structure DynamicSymbol where
  /-- Relative to the load address of the shared object. -/
  value : Nat
  size : Nat
  isWeak : Bool
  /-- `SymbolDb::is_canonical`: the definition that the name stands for. -/
  isCanonical : Bool
  /-- The alignment of the section that defines the symbol, if one does. -/
  sectionAlignment : Option (Result Alignment)

def DynamicSymbol.alignment (symbol : DynamicSymbol) : Result Alignment := do
  let alignment ← context symbol.sectionAlignment "Copy relocation for undefined symbol"
  alignment

/-! ## 1. Requests -/

structure CopyRelocationInfo (n : Nat) where
  /-- The symbol for which the copy relocation is generated. -/
  symbolId : Fin n
  isWeak : Bool
  deriving DecidableEq

/-- From addresses within the shared object to the copy relocations there. -/
abbrev CopyRelocations (n : Nat) := List (Nat × CopyRelocationInfo n)

/-- `entry(address).or_insert_with(..)` -/
def CopyRelocations.orInsert {n : Nat} (map : CopyRelocations n) (address : Nat)
    (info : CopyRelocationInfo n) : CopyRelocations n :=
  if (map.lookup address).isSome then map else map ++ [(address, info)]

/-- An update of the entry at an address, if there is one. -/
def CopyRelocations.modify {n : Nat} (map : CopyRelocations n) (address : Nat)
    (f : CopyRelocationInfo n → CopyRelocationInfo n) : CopyRelocations n :=
  map.map fun entry => if entry.1 = address then (entry.1, f entry.2) else entry

/-- `CopyRelocationInfo::add_symbol`, without its warning. -/
def CopyRelocationInfo.addSymbol {n : Nat} (info : CopyRelocationInfo n) (symbolId : Fin n)
    (isWeak : Bool) : CopyRelocationInfo n :=
  if info.symbolId = symbolId || isWeak then info else ⟨symbolId, false⟩

variable {n : Nat} (symbols : Fin n → DynamicSymbol)

def copyRelocateSymbol (map : CopyRelocations n) (symbolId : Fin n) : CopyRelocations n :=
  let symbol := symbols symbolId
  (map.orInsert symbol.value ⟨symbolId, symbol.isWeak⟩).modify symbol.value
    fun info => info.addSymbol symbolId symbol.isWeak

/-- The requests in the order in which they arrive. -/
def copyRelocateSymbols (requests : List (Fin n)) : CopyRelocations n :=
  requests.foldl (copyRelocateSymbol symbols) []

/-! ## 2. Alternatives -/

/-- One turn of the loop over the symbol table. -/
def selectCopyRelocationAlternative (map : CopyRelocations n) (symbolId : Fin n) :
    CopyRelocations n :=
  let symbol := symbols symbolId
  map.modify symbol.value fun info =>
    if !symbol.isCanonical then info
    else if symbol.isWeak || !info.isWeak || info.symbolId = symbolId then info
    else ⟨symbolId, false⟩

def selectCopyRelocationAlternatives (map : CopyRelocations n) : CopyRelocations n :=
  (List.finRange n).foldl (selectCopyRelocationAlternative symbols) map

/-- The copy relocations that are generated. -/
def copyRelocations (requests : List (Fin n)) : CopyRelocations n :=
  selectCopyRelocationAlternatives symbols (copyRelocateSymbols symbols requests)

/-- `needs_copy_relocation`: the flag is set by whoever requests a symbol and, for the canonical
symbols at an address with a copy relocation, by the loop over the symbol table. -/
def needsCopyRelocation (requests : List (Fin n)) (symbolId : Fin n) : Bool :=
  requests.contains symbolId || ((symbols symbolId).isCanonical &&
    ((copyRelocateSymbols symbols requests).lookup (symbols symbolId).value).isSome)

/-! ## 3. Space -/

/-- What is allocated for the copies: the parts of `.bss` by their alignment, and the
relocations. -/
structure CopyAllocations where
  bss : Alignment → Nat
  relaDynGeneral : Nat

/-- One turn of the loop over the copy relocations. -/
def allocateForCopyRelocation (sizes : CopyAllocations) (entry : Nat × CopyRelocationInfo n) :
    Result CopyAllocations := do
  let symbol := symbols entry.2.symbolId
  let alignment ← symbol.alignment
  .ok {
    bss := Function.update sizes.bss alignment
      (sizes.bss alignment + alignment.alignUp symbol.size)
    relaDynGeneral := sizes.relaDynGeneral + relaEntrySize }

def allocateForCopyRelocations (map : CopyRelocations n) : Result CopyAllocations :=
  map.foldlM (allocateForCopyRelocation symbols) ⟨fun _ => 0, 0⟩

/-! ## 4. Addresses -/

/-- A copy: the address of the data in the shared object, the part of `.bss` the copy is in, its
address there and the space that was allocated for it. -/
structure CopyArea where
  inputAddress : Nat
  alignment : Alignment
  address : Nat
  size : Nat
  deriving DecidableEq

/-- `copy_relocation_symbols`: sorted, since the copy relocations are written in this order. -/
def copyRelocationSymbols (map : CopyRelocations n) : List (Fin n) :=
  (map.map fun entry => entry.2.symbolId).mergeSort (· ≤ ·)

/-- The address in BSS for the copy relocation of a symbol, and the offsets behind it. -/
def assignCopyRelocationAddress (alignment : Alignment) (size : Nat)
    (memoryOffsets : Alignment → Nat) : Nat × (Alignment → Nat) :=
  (memoryOffsets alignment, Function.update memoryOffsets alignment
    (memoryOffsets alignment + alignment.alignUp size))

def assignCopyRelocationAddresses : List (Fin n) → (Alignment → Nat) → Result (List CopyArea)
  | [], _ => .ok []
  | symbolId :: rest, memoryOffsets => do
    let symbol := symbols symbolId
    let alignment ← symbol.alignment
    let assigned := assignCopyRelocationAddress alignment symbol.size memoryOffsets
    let areas ← assignCopyRelocationAddresses rest assigned.2
    .ok (⟨symbol.value, alignment, assigned.1, alignment.alignUp symbol.size⟩ :: areas)

/-- The copies of the data of one shared object, for requests in the order of their arrival and the
offsets at which the shared object's share of each part of `.bss` starts. -/
def copyAreas (requests : List (Fin n)) (memoryOffsets : Alignment → Nat) :
    Result (List CopyArea) := do
  let map := copyRelocations symbols requests
  let _ ← allocateForCopyRelocations symbols map
  assignCopyRelocationAddresses symbols (copyRelocationSymbols map) memoryOffsets

/-- The output address of a symbol that needs a copy relocation. -/
def copyAddress (areas : List CopyArea) (symbolId : Fin n) : Option Nat :=
  (areas.find? fun area => area.inputAddress = (symbols symbolId).value).map (·.address)

end Srs.Dynamic
