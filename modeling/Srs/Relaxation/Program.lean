/-
# Relaxation of a whole program

`layout.rs`: the executable sections of a program one after the other, each with its capacity
rounded up to its alignment; a pass that scans some of them against the addresses of that layout
(`relaxationScanPass`), and the loop that repeats it while something moves
(`performIterativeRelaxation`).

A relocation names the symbol by its definition, and the sections of all files are in one list:
what `symbol_db.definition` and the nesting of groups and files come to for the addresses.
-/
import Srs.Relaxation.Sleds
import Srs.Alignment

namespace Srs.Relaxation

open Deletions

/-! ## 1. Sections and symbols -/

/-- An executable section that is loaded. -/
structure ExecSection where
  alignment : Alignment
  bytes : Bytes
  relocations : List Rela
  extraCapacity : Nat
  size : Nat
  deltas : Option SectionRelaxDeltas

/-- `Section::capacity`, in a part that is not packed. -/
def ExecSection.capacity (sec : ExecSection) : Nat :=
  roundUp sec.alignment.exponent.toNat sec.size + sec.extraCapacity

inductive SymbolPlace where
  | inSection (index value : Nat)
  | absolute (value : Nat)
  | undefined
  deriving DecidableEq

structure SymbolDef where
  place : SymbolPlace
  isInterposable : Bool
  deriving DecidableEq

structure Program where
  /-- where the first section is -/
  base : Nat
  sections : List ExecSection
  symbol : Nat → SymbolDef

namespace Program

variable (p : Program)

/-- The address of a section: behind the capacities of those before it. -/
def address (index : Nat) : Nat := p.base + ((p.sections.take index).map (·.capacity)).sum

/-- `SYMBOL_ADDRESS_UNRESOLVED` -/
def symbolAddressUnresolved : Nat := 2 ^ 64 - 1

/-- `compute_section_and_symbol_addresses`, for one symbol.  The value is the one in the input:
nothing is taken off for what was deleted before it. -/
def symbolAddress (place : SymbolPlace) : Nat :=
  match place with
  | .inSection index value =>
    let secAddr := if index < p.sections.length then p.address index else 0
    if secAddr = 0 then symbolAddressUnresolved else secAddr + value
  | .absolute value => value
  | .undefined => symbolAddressUnresolved

/-- `SymbolOutputInfos::resolve` -/
def resolve (symIdx : Nat) : Option RelaxSymbolInfo :=
  let addr := p.symbolAddress (p.symbol symIdx).place
  if addr = symbolAddressUnresolved then none else some ⟨addr, (p.symbol symIdx).isInterposable⟩

/-! ## 2. A pass -/

/-- What the scan of a section is given. -/
def scanInput (index : Nat) (sec : ExecSection) : ScanInput :=
  ⟨p.address index, sec.bytes, sec.deltas, p.resolve⟩

/-- A section after its scan, and the margin of its closest candidate. -/
def scanSection (index : Nat) (sec : ExecSection) : ExecSection × Option Nat :=
  if p.address index = 0 then (sec, none)
  else
    let env := p.scanInput index sec
    let (rawDeltas, minMargin) := collectRelaxationDeltas env sec.relocations
    if rawDeltas = [] then (sec, minMargin)
    else
      ({ sec with
          size := sec.size - total rawDeltas
          deltas := passDeltas env sec.relocations }, minMargin)

/-- Whether a section is scanned: all are, the first time. -/
def isScanned (rescan : Option (List Nat)) (index : Nat) : Bool :=
  match rescan with
  | some indices => indices.contains index
  | none => true

/-- A section after a pass. -/
def passSection (rescan : Option (List Nat)) (index : Nat) (sec : ExecSection) : ExecSection :=
  if isScanned rescan index then (p.scanSection index sec).1 else sec

/-- The program after a pass. -/
def afterPass (rescan : Option (List Nat)) : Program :=
  { p with sections := p.sections.mapIdx (p.passSection rescan) }

/-- The bytes that the layout gets smaller by. -/
def deletedBy (rescan : Option (List Nat)) : Nat :=
  (p.sections.mapIdx fun index sec =>
    sec.capacity - (p.passSection rescan index sec).capacity).sum

/-- The sections with candidates that were not relaxed, and the margins. -/
def rescanCandidates (rescan : Option (List Nat)) : List (Nat × Nat) :=
  (p.sections.mapIdx fun index sec =>
    if isScanned rescan index then (p.scanSection index sec).2.map (Prod.mk index) else none)
    |>.filterMap id

/-- `relaxation_scan_pass` -/
def relaxationScanPass (rescan : Option (List Nat)) : Program × Nat × List (Nat × Nat) :=
  (p.afterPass rescan, p.deletedBy rescan, p.rescanCandidates rescan)

end Program

/-! ## 3. The loop -/

/-- `MAX_RELAXATION_ITERATIONS` -/
def maxRelaxationIterations : Nat := 5

/-- The loop, with the iterations that are left: the program it ends with, and its passes. -/
def relaxationLoop : Nat → Option (List Nat) → Program →
    Program × List (Program × Option (List Nat))
  | 0, _, p => (p, [])
  | n + 1, rescan, p =>
    if rescan = some [] then (p, [])
    else
      let (p', deleted, nextCandidates) := p.relaxationScanPass rescan
      if deleted = 0 then (p', [(p, rescan)])
      else
        let next := (nextCandidates.filter fun c => c.2 ≤ deleted).map (·.1)
        let rest := relaxationLoop n (some next) p'
        (rest.1, (p, rescan) :: rest.2)

/-- `perform_iterative_relaxation` -/
def performIterativeRelaxation (p : Program) : Program :=
  (relaxationLoop maxRelaxationIterations none p).1

/-- The programs that are scanned, and which of their sections. -/
def relaxationPasses (p : Program) : List (Program × Option (List Nat)) :=
  (relaxationLoop maxRelaxationIterations none p).2

/-! ## 4. Where things end up -/

namespace ExecSection

/-- The output offset of an input offset. -/
def outputOffset (sec : ExecSection) (offset : Nat) : Nat := optInputToOutput sec.deltas offset

end ExecSection

namespace Program

variable (p : Program)

/-- The address of an offset of a section. -/
def place (index : Nat) (sec : ExecSection) (offset : Nat) : Nat :=
  p.address index + sec.outputOffset offset

/-- The address of a symbol in the layout. -/
def target (place : SymbolPlace) : Option Nat :=
  match place with
  | .inSection index value => (p.sections[index]?).map fun sec => p.place index sec value
  | .absolute value => some value
  | .undefined => none

/-- **Every call whose `jalr` was deleted is in reach of its target.** -/
def CallsFit : Prop :=
  ∀ (index : Nat) (sec : ExecSection), p.sections[index]? = some sec →
    ∀ rel ∈ sec.relocations, rel.isCall = true → (rel.offset + 4, 4) ∈ rawOf sec.deltas →
      ∃ symIdx t, rel.symbol = some symIdx ∧ p.target (p.symbol symIdx).place = some t ∧
        distanceFitsJal (distance t (p.place index sec rel.offset)) = true

end Program

end Srs.Relaxation
