/-
# The Mach-O ownership planner

Before a Mach-O output is patched, `macho_ownership.rs` checks that the sections of the new
inputs can take over the output ranges of the old ones.  The inventory lists the owners of the
output, the candidates for taking over, and two independently discovered lists of the input
bytes that a transition depends on: the requirements and the claims.  The planner pushes a
diagnostic for everything that is wrong; a plan without diagnostics is complete.

This module is the planner as the source has it.  What a complete plan means is proved in
`MachOOwnershipPlan`.
-/
import Srs.Alignment
import Srs.Lib.Intervals
import Srs.Lib.SortDedup
import Srs.Lib.Text

namespace Srs.Incremental

/-! ## 1. Sites, keys and allocations -/

structure MachOObjectSite where
  inputFile : Text
  input : Text
  deriving DecidableEq

/-- The derived order: field by field. -/
instance : Ord MachOObjectSite :=
  ⟨compareLex (compareOn (·.inputFile)) (compareOn (·.input))⟩

inductive MachOObjectIdentityKind where
  | direct
  | archiveMember (identifier : List UInt8)
  | exact (input : Text)
  deriving DecidableEq

structure MachOObjectIdentity where
  inputFile : Text
  kind : MachOObjectIdentityKind
  deriving DecidableEq

structure MachOSectionSite where
  object : MachOObjectSite
  sectionIndex : UInt32
  deriving DecidableEq

instance : Ord MachOSectionSite :=
  ⟨compareLex (compareOn (·.object)) (compareOn (·.sectionIndex))⟩

structure MachOSectionOwnershipKey where
  object : MachOObjectIdentity
  sectionIndex : UInt32
  deriving DecidableEq

structure MachOOutputAllocation where
  outputOffset : UInt64
  outputSize : UInt64
  deriving DecidableEq

/-- `MachOOutputAllocation::end`. -/
def MachOOutputAllocation.endOffset (allocation : MachOOutputAllocation) : Option UInt64 :=
  checkedAdd allocation.outputOffset allocation.outputSize

structure MachOOutputOwner where
  allocation : MachOOutputAllocation
  previous : MachOSectionSite
  key : MachOSectionOwnershipKey
  deriving DecidableEq

structure MachOSectionTransitionCandidate where
  previous : MachOSectionSite
  current : MachOSectionSite
  previousKey : MachOSectionOwnershipKey
  currentKey : MachOSectionOwnershipKey
  previousAllocation : MachOOutputAllocation
  currentAllocation : MachOOutputAllocation
  deriving DecidableEq

inductive MachOCoverageGeneration where
  | previous
  | current
  deriving DecidableEq

instance : Ord MachOCoverageGeneration := ⟨compareOn MachOCoverageGeneration.ctorIdx⟩

inductive MachOCoverageKind where
  | sectionBytes
  | relocationField
  | symbolMetadata
  | unwindMetadata
  deriving DecidableEq

instance : Ord MachOCoverageKind := ⟨compareOn MachOCoverageKind.ctorIdx⟩

/-- A range of bytes of an input file that a section of one generation covers.  The source has
this record twice, under the two names below. -/
structure MachOCoverage where
  generation : MachOCoverageGeneration
  sectionSite : MachOSectionSite
  range : Interval
  kind : MachOCoverageKind
  deriving DecidableEq

abbrev MachOCoverageRequirement := MachOCoverage

abbrev MachOCoverageClaim := MachOCoverage

structure MachOTransitionCoverage where
  requirements : List MachOCoverageRequirement
  claims : List MachOCoverageClaim
  deriving DecidableEq

structure MachOCohortInventory where
  owners : List MachOOutputOwner
  candidates : List MachOSectionTransitionCandidate
  coverageRequirements : List MachOCoverageRequirement
  coverageClaims : List MachOCoverageClaim
  deriving DecidableEq

structure MachOSectionOwnershipTransition where
  owner : MachOOutputOwner
  current : MachOSectionSite
  deriving DecidableEq

inductive MachOOwnershipDiagnostic where
  | invalidOutputOwner (owner : MachOOutputOwner)
  | overlappingOutputOwners (first second : MachOOutputOwner)
  | changedOutputAllocation (candidate : MachOSectionTransitionCandidate)
  | missingPreviousOwner (candidate : MachOSectionTransitionCandidate)
  | ambiguousPreviousOwner (candidate : MachOSectionTransitionCandidate) (ownerCount : Nat)
  | ownerClaimedMultipleTimes (owner : MachOOutputOwner)
  | currentSiteClaimedMultipleTimes (current : MachOSectionSite)
  | unclaimedPreviousOwner (owner : MachOOutputOwner)
  | missingCoverageDomain (transitionCount : Nat)
  | missingTransitionCoverage (generation : MachOCoverageGeneration)
      (sectionSite : MachOSectionSite)
  | emptyCoverageRequirement (requirement : MachOCoverageRequirement)
  | emptyCoverageRange (claim : MachOCoverageClaim)
  | overlappingCoverageRequirements (first second : MachOCoverageRequirement)
  | overlappingCoverage (first second : MachOCoverageClaim)
  | missingCoverage (requirement : MachOCoverageRequirement)
  | unexpectedCoverage (claim : MachOCoverageClaim)
  deriving DecidableEq

structure MachOOwnershipTransitionPlan where
  inventory : MachOCohortInventory
  transitions : List MachOSectionOwnershipTransition
  coverage : MachOTransitionCoverage
  diagnostics : List MachOOwnershipDiagnostic
  deriving DecidableEq

def MachOOwnershipTransitionPlan.isComplete (plan : MachOOwnershipTransitionPlan) : Bool :=
  plan.diagnostics.isEmpty

/-! ## 2. The owners of the output -/

/-- The neighbours of a list, `slice::windows(2)`. -/
def windows2 {α : Type} : List α → List (α × α)
  | a :: b :: rest => (a, b) :: windows2 (b :: rest)
  | _ => []

/-- An owner with its end, when it has one and is not empty. -/
def validOutputOwner (owner : MachOOutputOwner) : Option (MachOOutputOwner × UInt64) := do
  let ownerEnd ← owner.allocation.endOffset
  if owner.allocation.outputSize = 0 then none else some (owner, ownerEnd)

def outputOwnerDiagnostics (owners : List MachOOutputOwner) : List MachOOwnershipDiagnostic :=
  let invalid := owners.filter fun owner => (validOutputOwner owner).isNone
  let valid := sortedByKey (fun pair => pair.1.allocation.outputOffset.toNat)
    (owners.filterMap validOutputOwner)
  let overlapping := (windows2 valid).filter fun pair =>
    pair.2.1.allocation.outputOffset < pair.1.2
  invalid.map .invalidOutputOwner
    ++ overlapping.map fun pair => .overlappingOutputOwners pair.1.1 pair.2.1

/-! ## 3. Coverage -/

/-- The order both lists are sorted by. -/
def compareCoverage : MachOCoverage → MachOCoverage → Ordering :=
  compareLex (compareOn (·.generation))
    (compareLex (compareOn (·.sectionSite.object.inputFile))
      (compareLex (compareOn (·.range.start))
        (compareLex (compareOn (·.range.stop))
          (compareLex (compareOn (·.sectionSite)) (compareOn (·.kind))))))

/-- Two ranges of one generation and one input file, the second of which starts before the first
ends. -/
def coverageOverlaps (first second : MachOCoverage) : Bool :=
  first.generation = second.generation
    ∧ first.sectionSite.object.inputFile = second.sectionSite.object.inputFile
    ∧ second.range.start < first.range.stop

def coverageRequirementMatchesClaim (requirement : MachOCoverageRequirement)
    (claim : MachOCoverageClaim) : Bool :=
  requirement.generation = claim.generation ∧ requirement.sectionSite = claim.sectionSite
    ∧ requirement.range = claim.range ∧ requirement.kind = claim.kind

/-- The two sections whose bytes a transition needs covered. -/
def transitionSections (transition : MachOSectionOwnershipTransition) :
    List (MachOCoverageGeneration × MachOSectionSite) :=
  [(.previous, transition.owner.previous), (.current, transition.current)]

def coversSectionBytes (requirements : List MachOCoverageRequirement)
    (needed : MachOCoverageGeneration × MachOSectionSite) : Bool :=
  requirements.any fun requirement =>
    requirement.generation = needed.1 ∧ requirement.sectionSite = needed.2
      ∧ requirement.kind = .sectionBytes

open MachOOwnershipDiagnostic in
def validateCoverage (requirements : List MachOCoverageRequirement)
    (claims : List MachOCoverageClaim) (transitions : List MachOSectionOwnershipTransition) :
    MachOTransitionCoverage × List MachOOwnershipDiagnostic :=
  let requirements := sortedBy compareCoverage requirements
  let claims := sortedBy compareCoverage claims
  let domain := if ¬ transitions.isEmpty ∧ requirements.isEmpty then
      [missingCoverageDomain transitions.length]
    else []
  let uncovered := (transitions.flatMap transitionSections).filter fun needed =>
    ¬ coversSectionBytes requirements needed
  let emptyRequirements := requirements.filter fun requirement => ¬ requirement.range.Nonempty
  let emptyClaims := claims.filter fun claim => ¬ claim.range.Nonempty
  let overlappingRequirements := (windows2 requirements).filter fun pair =>
    coverageOverlaps pair.1 pair.2
  let overlappingClaims := (windows2 claims).filter fun pair => coverageOverlaps pair.1 pair.2
  let missing := requirements.filter fun requirement =>
    ¬ claims.any fun claim => coverageRequirementMatchesClaim requirement claim
  let unexpected := claims.filter fun claim =>
    ¬ requirements.any fun requirement => coverageRequirementMatchesClaim requirement claim
  (⟨requirements, claims⟩,
    domain
      ++ uncovered.map (fun needed => missingTransitionCoverage needed.1 needed.2)
      ++ emptyRequirements.map emptyCoverageRequirement
      ++ emptyClaims.map emptyCoverageRange
      ++ overlappingRequirements.map (fun pair => overlappingCoverageRequirements pair.1 pair.2)
      ++ overlappingClaims.map (fun pair => overlappingCoverage pair.1 pair.2)
      ++ missing.map missingCoverage
      ++ unexpected.map unexpectedCoverage)

/-! ## 4. The planner -/

/-- What the loop over the candidates carries. -/
structure ClaimState where
  diagnostics : List MachOOwnershipDiagnostic
  transitions : List MachOSectionOwnershipTransition
  claimedOwners : List Nat
  claimedCurrentSites : List MachOSectionOwnershipKey

/-- An owner that a candidate may take over from. -/
def ownerMatches (candidate : MachOSectionTransitionCandidate) (owner : MachOOutputOwner) : Bool :=
  owner.key = candidate.previousKey ∧ owner.allocation = candidate.previousAllocation

/-- The matching owners with their positions. -/
def matchingOwners (owners : List MachOOutputOwner) (candidate : MachOSectionTransitionCandidate) :
    List (MachOOutputOwner × Nat) :=
  owners.zipIdx.filter fun pair => ownerMatches candidate pair.1

/-- The body of the loop over the candidates. -/
def claimCandidate (owners : List MachOOutputOwner) (state : ClaimState)
    (candidate : MachOSectionTransitionCandidate) : ClaimState :=
  if candidate.previousAllocation ≠ candidate.currentAllocation then
    { state with diagnostics := state.diagnostics ++ [.changedOutputAllocation candidate] }
  else match matchingOwners owners candidate with
  | [] => { state with diagnostics := state.diagnostics ++ [.missingPreviousOwner candidate] }
  | [(owner, ownerIndex)] =>
    if ownerIndex ∈ state.claimedOwners then
      { state with diagnostics := state.diagnostics ++ [.ownerClaimedMultipleTimes owner] }
    -- the owner counts as claimed even when the current site turns out to be taken
    else if candidate.currentKey ∈ state.claimedCurrentSites then
      { state with
        claimedOwners := ownerIndex :: state.claimedOwners
        diagnostics := state.diagnostics ++ [.currentSiteClaimedMultipleTimes candidate.current] }
    else
      { state with
        claimedOwners := ownerIndex :: state.claimedOwners
        claimedCurrentSites := candidate.currentKey :: state.claimedCurrentSites
        transitions := state.transitions ++ [⟨owner, candidate.current⟩] }
  | matching =>
    { state with
      diagnostics := state.diagnostics ++ [.ambiguousPreviousOwner candidate matching.length] }

def planMachoOwnershipTransitions (inventory : MachOCohortInventory) :
    MachOOwnershipTransitionPlan :=
  let claimed := inventory.candidates.foldl (claimCandidate inventory.owners)
    ⟨outputOwnerDiagnostics inventory.owners, [], [], []⟩
  let unclaimed := inventory.owners.zipIdx.filter fun pair => pair.2 ∉ claimed.claimedOwners
  let (coverage, coverageDiagnostics) := validateCoverage inventory.coverageRequirements
    inventory.coverageClaims claimed.transitions
  { inventory
    transitions := claimed.transitions
    coverage
    diagnostics := claimed.diagnostics
      ++ unclaimed.map (fun pair => .unclaimedPreviousOwner pair.1) ++ coverageDiagnostics }

end Srs.Incremental
