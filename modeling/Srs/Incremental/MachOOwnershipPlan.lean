/-
# What a complete ownership plan means

`plan_complete_iff` reads the planner's checks as conditions on the inventory.  The planner
compares neighbours in sorted lists and keeps sets of positions it has seen; the conditions speak
of all pairs, and of a bijection between the candidates and the owners.

The loop over the candidates is described once, by what a step without a new diagnostic does
(`claimCandidate_clean`); `foldl_claimCandidate_clean` carries that over the whole list.
-/
import Srs.Incremental.MachOOwnership

namespace Srs.Incremental

open List Option

/-! ## 1. The conditions -/

/-- The bytes of the output an allocation takes. -/
def MachOOutputAllocation.interval (allocation : MachOOutputAllocation) : Interval :=
  ⟨allocation.outputOffset.toNat, allocation.outputOffset.toNat + allocation.outputSize.toNat⟩

/-- Every owner takes some bytes that do not wrap around, and no two take the same. -/
def OwnersDisjoint (owners : List MachOOutputOwner) : Prop :=
  (∀ owner ∈ owners, owner.allocation.outputSize ≠ 0
      ∧ owner.allocation.outputOffset.toNat + owner.allocation.outputSize.toNat < 2 ^ 64)
    ∧ owners.Pairwise fun a b => a.allocation.interval.Apart b.allocation.interval

/-- The owners a candidate matches by key and allocation are given by a bijection. -/
def CandidatesMatchOwners (owners : List MachOOutputOwner)
    (candidates : List MachOSectionTransitionCandidate) : Prop :=
  ∃ f : Fin candidates.length → Fin owners.length, Function.Bijective f ∧
    ∀ c o, (owners[o].key = candidates[c].previousKey
        ∧ owners[o].allocation = candidates[c].previousAllocation) ↔ f c = o

/-- The ranges of a list have bytes, and no two of one generation and input file share one. -/
def RangesDisjoint (ranges : List MachOCoverage) : Prop :=
  (∀ r ∈ ranges, r.range.start < r.range.stop)
    ∧ ranges.Pairwise fun a b => a.generation = b.generation →
      a.sectionSite.object.inputFile = b.sectionSite.object.inputFile → a.range.Apart b.range

/-- Both sections of every transition have their bytes required. -/
def TransitionsCovered (requirements : List MachOCoverageRequirement)
    (transitions : List MachOSectionOwnershipTransition) : Prop :=
  ∀ transition ∈ transitions,
    (∃ r ∈ requirements, r.generation = .previous ∧ r.sectionSite = transition.owner.previous
        ∧ r.kind = .sectionBytes)
      ∧ ∃ r ∈ requirements, r.generation = .current ∧ r.sectionSite = transition.current
        ∧ r.kind = .sectionBytes

/-! ## 2. Neighbours -/

/-- No pair of neighbours is reported exactly when neighbours are always related. -/
theorem filter_windows2_eq_nil_iff {α : Type} {bad : α × α → Bool} {r : α → α → Prop}
    (hbad : ∀ a b, bad (a, b) = false ↔ r a b) : ∀ l : List α,
    (windows2 l).filter bad = [] ↔ l.IsChain r
  | [] => by simp [windows2]
  | [a] => by simp [windows2]
  | a :: b :: rest => by
    have ih := filter_windows2_eq_nil_iff hbad (b :: rest)
    rw [windows2, isChain_cons_cons, ← ih, ← hbad a b, filter_cons]
    cases bad (a, b) <;> simp

/-! ## 3. The owners of the output -/

variable {owner : MachOOutputOwner} {owners : List MachOOutputOwner}
  {candidate : MachOSectionTransitionCandidate} {i : Nat}
  {candidates : List MachOSectionTransitionCandidate} {assigned : List (MachOOutputOwner × Nat)}

variable {pair : MachOOutputOwner × UInt64}

theorem validOutputOwner_eq_some :
    validOutputOwner owner = some pair
      ↔ pair.1 = owner ∧ owner.allocation.outputSize ≠ 0
        ∧ owner.allocation.outputOffset.toNat + owner.allocation.outputSize.toNat
          = pair.2.toNat := by
  obtain ⟨owner', ownerEnd⟩ := pair
  simp only [validOutputOwner, bind_eq_bind, bind_eq_some_iff,
    ite_none_left_eq_some, some.injEq, Prod.mk.injEq,
    MachOOutputAllocation.endOffset, checkedAdd_eq_some]
  constructor
  · rintro ⟨_, hend, hsize, rfl, rfl⟩
    exact ⟨rfl, hsize, hend⟩
  · rintro ⟨rfl, hsize, hend⟩
    exact ⟨ownerEnd, hend, hsize, rfl, rfl⟩

theorem exists_validOutputOwner :
    (∃ pair, validOutputOwner owner = some pair)
      ↔ owner.allocation.outputSize ≠ 0
        ∧ owner.allocation.outputOffset.toNat + owner.allocation.outputSize.toNat < 2 ^ 64 := by
  simp only [validOutputOwner_eq_some]
  constructor
  · rintro ⟨pair, -, hsize, hend⟩
    exact ⟨hsize, hend ▸ pair.2.toNat_lt⟩
  · rintro ⟨hsize, hend⟩
    refine ⟨(owner, .ofNat (owner.allocation.outputOffset.toNat
      + owner.allocation.outputSize.toNat)), rfl, hsize, ?_⟩
    rw [UInt64.toNat_ofNat_of_lt' hend]

/-- The bytes a valid owner takes, read off its offset and its end. -/
def ownerRange (pair : MachOOutputOwner × UInt64) : Interval :=
  ⟨pair.1.allocation.outputOffset.toNat, pair.2.toNat⟩

theorem ownerRange_of_valid
    (h : validOutputOwner owner = some pair) :
    ownerRange pair = owner.allocation.interval ∧ (ownerRange pair).Nonempty := by
  obtain ⟨rfl, hsize, hend⟩ := validOutputOwner_eq_some.mp h
  have hpos : 0 < pair.1.allocation.outputSize.toNat := by
    rcases Nat.eq_zero_or_pos pair.1.allocation.outputSize.toNat with h0 | h0
    · exact absurd (UInt64.toNat_inj.mp h0) hsize
    · exact h0
  refine ⟨?_, ?_⟩
  · rw [ownerRange, MachOOutputAllocation.interval, hend]
  · unfold Interval.Nonempty ownerRange
    simp only
    omega

/-- **The owners are accepted exactly when they are disjoint.** -/
theorem outputOwnerDiagnostics_eq_nil_iff (owners : List MachOOutputOwner) :
    outputOwnerDiagnostics owners = [] ↔ OwnersDisjoint owners := by
  have hvalid : (owners.filter fun owner => (validOutputOwner owner).isNone) = []
      ↔ ∀ owner ∈ owners, ∃ pair, validOutputOwner owner = some pair := by
    simp only [filter_eq_nil_iff, isNone_iff_eq_none, ← ne_none_iff_exists',
      ne_eq]
  rw [outputOwnerDiagnostics, append_eq_nil_iff, map_eq_nil_iff, map_eq_nil_iff,
    hvalid, OwnersDisjoint]
  simp only [← exists_validOutputOwner]
  refine and_congr_right fun hall => ?_
  -- every owner is valid, so the sorted list holds all of them
  have hne : ∀ pair ∈ sortedByKey (fun pair => pair.1.allocation.outputOffset.toNat)
      (owners.filterMap validOutputOwner), (ownerRange pair).Nonempty := by
    intro pair hpair
    rw [(sortedByKey_perm _ _).mem_iff, mem_filterMap] at hpair
    obtain ⟨owner, -, hsome⟩ := hpair
    exact (ownerRange_of_valid hsome).2
  rw [filter_windows2_eq_nil_iff (r := fun a b => (ownerRange a).stop ≤ (ownerRange b).start)
    (fun a b => by simp [ownerRange, UInt64.le_iff_toNat_le])]
  have hsorted : (sortedByKey (fun pair => pair.1.allocation.outputOffset.toNat)
      (owners.filterMap validOutputOwner)).Pairwise
        fun a b => (ownerRange a).start ≤ (ownerRange b).start :=
    sortedByKey_pairwise _ _
  rw [← Interval.pairwise_disjoint_iff_isChain ownerRange hsorted hne,
    (sortedByKey_perm _ _).pairwise_iff fun h => h.symm, pairwise_filterMap]
  refine List.Pairwise.iff_of_mem ?_
  intro a b ha hb
  obtain ⟨pa, hpa⟩ := hall a ha
  obtain ⟨pb, hpb⟩ := hall b hb
  rw [← (ownerRange_of_valid hpa).1, ← (ownerRange_of_valid hpb).1]
  constructor
  · intro h
    exact h pa hpa pb hpb
  · intro h x hx y hy
    rw [hpa, some.injEq] at hx
    rw [hpb, some.injEq] at hy
    rw [← hx, ← hy]
    exact h

/-! ## 4. Coverage -/

instance : Std.TransOrd MachOObjectSite :=
  inferInstanceAs (Std.TransCmp (compareLex (compareOn MachOObjectSite.inputFile)
    (compareOn MachOObjectSite.input)))

instance : Std.TransOrd MachOSectionSite :=
  inferInstanceAs (Std.TransCmp (compareLex (compareOn MachOSectionSite.object)
    (compareOn MachOSectionSite.sectionIndex)))

instance : Std.TransOrd MachOCoverageGeneration :=
  inferInstanceAs (Std.TransCmp (compareOn MachOCoverageGeneration.ctorIdx))

instance : Std.LawfulEqOrd MachOCoverageGeneration where
  eq_of_compare {a b} h := by
    revert h
    cases a <;> cases b <;> decide

instance : Std.TransOrd MachOCoverageKind :=
  inferInstanceAs (Std.TransCmp (compareOn MachOCoverageKind.ctorIdx))

instance : Std.TransCmp compareCoverage := by
  unfold compareCoverage
  infer_instance

/-- The ranges that are compared with each other: those of one generation and input file. -/
def coverageGroup (r : MachOCoverage) : MachOCoverageGeneration × Text :=
  (r.generation, r.sectionSite.object.inputFile)

/-- The order of the groups in a sorted list. -/
def compareGroup : MachOCoverageGeneration × Text → MachOCoverageGeneration × Text → Ordering :=
  compareLex (compareOn Prod.fst) (compareOn Prod.snd)

instance : Std.TransCmp compareGroup := by
  unfold compareGroup
  infer_instance

def groupBefore (a b : MachOCoverageGeneration × Text) : Prop := compareGroup a b = .lt

theorem groupBefore_irrefl (g : MachOCoverageGeneration × Text) : ¬ groupBefore g g := by
  have hself : compareGroup g g = .eq := Std.ReflCmp.compare_self
  rw [groupBefore, hself]
  decide

theorem groupBefore_trans (a b c : MachOCoverageGeneration × Text) (hab : groupBefore a b)
    (hbc : groupBefore b c) : groupBefore a c :=
  Std.TransCmp.lt_trans hab hbc

/-- A list sorted by `compareCoverage` is sorted by groups, and by starts within a group. -/
theorem group_lt_or_start_le {a b : MachOCoverage} (h : (compareCoverage a b).isLE = true) :
    groupBefore (coverageGroup a) (coverageGroup b)
      ∨ coverageGroup a = coverageGroup b ∧ a.range.start ≤ b.range.start := by
  simp only [compareCoverage, compareLex, compareOn, Ordering.isLE_then_iff_or,
    Std.LawfulEqOrd.compare_eq_iff_eq] at h
  simp only [groupBefore, compareGroup, compareLex, compareOn, coverageGroup, Ordering.then_eq_lt, Prod.mk.injEq,
    Std.LawfulEqOrd.compare_eq_iff_eq]
  rcases h with h | ⟨hgen, h | ⟨hfile, hstart⟩⟩
  · exact .inl (.inl h)
  · exact .inl (.inr ⟨hgen, h⟩)
  · refine .inr ⟨⟨hgen, hfile⟩, ?_⟩
    rcases hstart with h | ⟨h, -⟩
    · exact (Nat.compare_eq_lt.mp h).le
    · exact h.le

/-- **Comparing neighbours of the sorted list decides disjointness.** -/
theorem rangesDisjoint_iff (ranges : List MachOCoverage) :
    RangesDisjoint ranges
      ↔ (sortedBy compareCoverage ranges).filter (fun r => ¬ r.range.Nonempty) = []
        ∧ (windows2 (sortedBy compareCoverage ranges)).filter
          (fun pair => coverageOverlaps pair.1 pair.2) = [] := by
  have hempty : (sortedBy compareCoverage ranges).filter (fun r => ¬ r.range.Nonempty) = []
      ↔ ∀ r ∈ ranges, r.range.start < r.range.stop := by
    simp [filter_eq_nil_iff, Interval.Nonempty]
  have hoverlap : ∀ a b : MachOCoverage, coverageOverlaps a b = false
      ↔ (coverageGroup a = coverageGroup b → a.range.stop ≤ b.range.start) := by
    intro a b
    simp only [coverageOverlaps, coverageGroup, Prod.mk.injEq, decide_eq_false_iff_not]
    constructor
    · intro h hgroup
      by_contra hlt
      exact h ⟨hgroup.1, hgroup.2, by omega⟩
    · rintro h ⟨hgen, hfile, hlt⟩
      have := h ⟨hgen, hfile⟩
      omega
  rw [hempty, RangesDisjoint]
  refine and_congr_right fun hne => ?_
  have hsorted : (sortedBy compareCoverage ranges).Pairwise fun a b =>
      groupBefore (coverageGroup a) (coverageGroup b)
        ∨ coverageGroup a = coverageGroup b ∧ a.range.start ≤ b.range.start :=
    (sortedBy_pairwise compareCoverage ranges).imp group_lt_or_start_le
  rw [filter_windows2_eq_nil_iff hoverlap, ← Interval.pairwise_disjoint_iff_isChain_group
    groupBefore_irrefl groupBefore_trans hsorted (fun r hr => hne r (mem_sortedBy.mp hr)),
    (sortedBy_perm _ _).pairwise_iff fun h hg => (h hg.symm).symm]
  simp only [coverageGroup, Prod.mk.injEq, and_imp]

theorem coverageRequirementMatchesClaim_iff {requirement claim : MachOCoverage} :
    coverageRequirementMatchesClaim requirement claim = true ↔ requirement = claim := by
  obtain ⟨g, t, r, k⟩ := requirement
  obtain ⟨g', t', r', k'⟩ := claim
  simp [coverageRequirementMatchesClaim]

/-- What the requirements leave uncovered. -/
theorem transitionsCovered_iff (requirements : List MachOCoverageRequirement)
    (transitions : List MachOSectionOwnershipTransition) :
    TransitionsCovered requirements transitions
      ↔ (transitions.flatMap transitionSections).filter
        (fun needed => ¬ coversSectionBytes (sortedBy compareCoverage requirements) needed)
          = [] := by
  have hcovers : ∀ needed, coversSectionBytes (sortedBy compareCoverage requirements) needed = true
      ↔ ∃ r ∈ requirements, r.generation = needed.1 ∧ r.sectionSite = needed.2
        ∧ r.kind = .sectionBytes := by
    intro needed
    simp [coversSectionBytes, List.any_eq_true]
  rw [filter_eq_nil_iff]
  constructor
  · intro h needed hneeded
    obtain ⟨transition, htransition, hmem⟩ := mem_flatMap.mp hneeded
    obtain ⟨hprevious, hcurrent⟩ := h transition htransition
    rw [decide_eq_true_eq, not_not, hcovers]
    simp only [transitionSections, mem_cons, not_mem_nil, or_false] at hmem
    rcases hmem with rfl | rfl
    · exact hprevious
    · exact hcurrent
  · intro h transition htransition
    have hall : ∀ needed ∈ transitionSections transition, ∃ r ∈ requirements,
        r.generation = needed.1 ∧ r.sectionSite = needed.2 ∧ r.kind = .sectionBytes := by
      intro needed hneeded
      have := h needed (mem_flatMap.mpr ⟨transition, htransition, hneeded⟩)
      rwa [decide_eq_true_eq, not_not, hcovers] at this
    exact ⟨hall (.previous, _) (by simp [transitionSections]),
      hall (.current, _) (by simp [transitionSections])⟩

/-- Nothing is reported missing exactly when the one list is part of the other. -/
theorem filter_not_any_eq_nil_iff {l m : List MachOCoverage}
    {isMatch : MachOCoverage → MachOCoverage → Bool} (hmatch : ∀ a b, isMatch a b = true ↔ a = b) :
    l.filter (fun a => ¬ m.any fun b => isMatch a b) = [] ↔ ∀ a ∈ l, a ∈ m := by
  simp [filter_eq_nil_iff, List.any_eq_true, hmatch]

/-- A missing domain is never the only thing that is wrong. -/
theorem domain_of_transitionsCovered {requirements : List MachOCoverageRequirement}
    {transitions : List MachOSectionOwnershipTransition}
    (h : TransitionsCovered requirements transitions) :
    ¬ (¬ transitions.isEmpty ∧ (sortedBy compareCoverage requirements).isEmpty) := by
  rintro ⟨hne, hempty⟩
  cases transitions with
  | nil => exact hne rfl
  | cons transition rest =>
    obtain ⟨⟨r, hr, -⟩, -⟩ := h transition (by simp)
    rw [List.isEmpty_iff] at hempty
    have hr' : r ∈ sortedBy compareCoverage requirements := mem_sortedBy.mpr hr
    rw [hempty] at hr'
    exact absurd hr' (by simp)

/-- **The coverage is accepted exactly when both lists are disjoint, hold the same ranges, and
cover every transition.** -/
theorem validateCoverage_eq_nil_iff (requirements : List MachOCoverageRequirement)
    (claims : List MachOCoverageClaim) (transitions : List MachOSectionOwnershipTransition) :
    (validateCoverage requirements claims transitions).2 = []
      ↔ RangesDisjoint requirements ∧ RangesDisjoint claims
        ∧ (∀ r, r ∈ requirements ↔ r ∈ claims) ∧ TransitionsCovered requirements transitions := by
  simp only [validateCoverage, append_eq_nil_iff, map_eq_nil_iff]
  rw [filter_not_any_eq_nil_iff fun a b => coverageRequirementMatchesClaim_iff,
    filter_not_any_eq_nil_iff fun a b => coverageRequirementMatchesClaim_iff.trans eq_comm,
    ← transitionsCovered_iff]
  simp only [mem_sortedBy]
  constructor
  · rintro ⟨⟨⟨⟨⟨⟨⟨-, hcovered⟩, hreq⟩, hclaim⟩, hreqs⟩, hclaims⟩, hmissing⟩, hunexpected⟩
    exact ⟨(rangesDisjoint_iff _).mpr ⟨hreq, hreqs⟩, (rangesDisjoint_iff _).mpr ⟨hclaim, hclaims⟩,
      fun r => ⟨hmissing r, hunexpected r⟩, hcovered⟩
  · rintro ⟨hreqs, hclaims, hsame, hcovered⟩
    obtain ⟨hreq, hreqs⟩ := (rangesDisjoint_iff _).mp hreqs
    obtain ⟨hclaim, hclaims⟩ := (rangesDisjoint_iff _).mp hclaims
    exact ⟨⟨⟨⟨⟨⟨⟨if_neg (domain_of_transitionsCovered hcovered), hcovered⟩, hreq⟩, hclaim⟩, hreqs⟩,
      hclaims⟩, fun r => (hsame r).mp⟩, fun r => (hsame r).mpr⟩

/-! ## 5. The loop over the candidates -/

theorem mem_matchingOwners :
    (owner, i) ∈ matchingOwners owners candidate
      ↔ owners[i]? = some owner ∧ ownerMatches candidate owner = true := by
  rw [matchingOwners, mem_filter, mem_zipIdx_iff_getElem?]

theorem nodup_matchingOwners (owners : List MachOOutputOwner)
    (candidate : MachOSectionTransitionCandidate) : (matchingOwners owners candidate).Nodup := by
  refine Nodup.filter _ (Nodup.of_map Prod.snd ?_)
  rw [zipIdx_map_snd]
  exact nodup_range'

/-- A candidate has one owner when it matches that one and no other. -/
theorem matchingOwners_eq_singleton_iff :
    matchingOwners owners candidate = [(owner, i)]
      ↔ owners[i]? = some owner ∧ ownerMatches candidate owner = true
        ∧ ∀ j other, owners[j]? = some other → ownerMatches candidate other = true → j = i := by
  constructor
  · intro h
    have hmem : (owner, i) ∈ matchingOwners owners candidate := by simp [h]
    obtain ⟨hget, hmatch⟩ := mem_matchingOwners.mp hmem
    refine ⟨hget, hmatch, ?_⟩
    intro j other hj hother
    have : (other, j) ∈ matchingOwners owners candidate := mem_matchingOwners.mpr ⟨hj, hother⟩
    rw [h, mem_singleton, Prod.mk.injEq] at this
    exact this.2
  · rintro ⟨hget, hmatch, hunique⟩
    have hmem : (owner, i) ∈ matchingOwners owners candidate :=
      mem_matchingOwners.mpr ⟨hget, hmatch⟩
    have hall : ∀ pair ∈ matchingOwners owners candidate, pair = (owner, i) := by
      rintro ⟨other, j⟩ hpair
      obtain ⟨hj, hother⟩ := mem_matchingOwners.mp hpair
      obtain rfl := hunique j other hj hother
      rw [hget, some.injEq] at hj
      rw [hj]
    -- no pair occurs twice, so one that is equal to all of them is the only one
    have hnodup := nodup_matchingOwners owners candidate
    rw [eq_replicate_of_mem hall, nodup_replicate] at hnodup
    have hpos : 0 < (matchingOwners owners candidate).length := length_pos_of_mem hmem
    rw [eq_replicate_of_mem hall, show (matchingOwners owners candidate).length = 1 by omega]
    rfl

/-- A candidate and the owner it takes over from. -/
def Takes (owners : List MachOOutputOwner) (candidate : MachOSectionTransitionCandidate)
    (pair : MachOOutputOwner × Nat) : Prop :=
  candidate.previousAllocation = candidate.currentAllocation
    ∧ matchingOwners owners candidate = [pair]

/-- **What one candidate does**: either something is reported, or its owner and its current site
are free and are claimed. -/
theorem claimCandidate_cases (owners : List MachOOutputOwner) (state : ClaimState)
    (candidate : MachOSectionTransitionCandidate) :
    (∃ diagnostic, (claimCandidate owners state candidate).diagnostics
        = state.diagnostics ++ [diagnostic])
      ∨ ∃ owner i, Takes owners candidate (owner, i) ∧ i ∉ state.claimedOwners
        ∧ candidate.currentKey ∉ state.claimedCurrentSites
        ∧ claimCandidate owners state candidate
          = ⟨state.diagnostics, state.transitions ++ [⟨owner, candidate.current⟩],
            i :: state.claimedOwners, candidate.currentKey :: state.claimedCurrentSites⟩ := by
  unfold claimCandidate
  split
  · exact .inl ⟨_, rfl⟩
  rename_i hallocation
  split
  · exact .inl ⟨_, rfl⟩
  · rename_i owner i hmatching
    split
    · exact .inl ⟨_, rfl⟩
    rename_i howner
    split
    · exact .inl ⟨_, rfl⟩
    rename_i hsite
    exact .inr ⟨owner, i, ⟨not_not.mp hallocation, hmatching⟩, howner, hsite, rfl⟩
  · exact .inl ⟨_, rfl⟩

/-- A candidate whose owner and current site are free claims them. -/
theorem claimCandidate_of_takes {state : ClaimState}
    (htakes : Takes owners candidate (owner, i)) (howner : i ∉ state.claimedOwners)
    (hsite : candidate.currentKey ∉ state.claimedCurrentSites) :
    claimCandidate owners state candidate
      = ⟨state.diagnostics, state.transitions ++ [⟨owner, candidate.current⟩],
        i :: state.claimedOwners, candidate.currentKey :: state.claimedCurrentSites⟩ := by
  rw [claimCandidate, if_neg (not_not.mpr htakes.1), htakes.2]
  simp only [howner, hsite, if_false]

/-- Reported is reported. -/
theorem isPrefix_foldl_claimCandidate (owners : List MachOOutputOwner) :
    ∀ (candidates : List MachOSectionTransitionCandidate) (state : ClaimState),
      state.diagnostics <+: (candidates.foldl (claimCandidate owners) state).diagnostics := by
  intro candidates
  induction candidates with
  | nil => exact fun _ => prefix_refl _
  | cons candidate rest ih =>
    intro state
    refine IsPrefix.trans ?_ (ih (claimCandidate owners state candidate))
    rcases claimCandidate_cases owners state candidate with ⟨d, hd⟩ | ⟨_, _, -, -, -, heq⟩
    · rw [hd]
      exact prefix_append _ _
    · exact heq ▸ prefix_refl _

/-- Owners for all candidates of a list: each takes its own, and nothing is claimed twice. -/
structure Assigned (owners : List MachOOutputOwner) (state : ClaimState)
    (candidates : List MachOSectionTransitionCandidate)
    (assigned : List (MachOOutputOwner × Nat)) : Prop where
  takes : Forall₂ (Takes owners) candidates assigned
  owners_nodup : (assigned.map Prod.snd).Nodup
  owners_free : ∀ pair ∈ assigned, pair.2 ∉ state.claimedOwners
  sites_nodup : (candidates.map (·.currentKey)).Nodup
  sites_free : ∀ candidate ∈ candidates, candidate.currentKey ∉ state.claimedCurrentSites

/-- The transitions of candidates and their owners. -/
def transitionsOf (candidates : List MachOSectionTransitionCandidate)
    (assigned : List (MachOOutputOwner × Nat)) : List MachOSectionOwnershipTransition :=
  zipWith (fun candidate pair => ⟨pair.1, candidate.current⟩) candidates assigned

/-- A run that reports nothing assigns an owner to every candidate. -/
theorem assigned_of_foldl :
    ∀ {candidates : List MachOSectionTransitionCandidate} {state : ClaimState},
      (candidates.foldl (claimCandidate owners) state).diagnostics = state.diagnostics →
        ∃ assigned, Assigned owners state candidates assigned := by
  intro candidates
  induction candidates with
  | nil =>
    intro state _
    exact ⟨[], .nil, by simp, by simp, by simp, by simp⟩
  | cons candidate rest ih =>
    intro state h
    rw [foldl_cons] at h
    rcases claimCandidate_cases owners state candidate with
      ⟨d, hd⟩ | ⟨owner, i, htakes, howner, hsite, heq⟩
    · -- what was reported first would still be there
      have hprefix := isPrefix_foldl_claimCandidate owners rest
        (claimCandidate owners state candidate)
      rw [h, hd] at hprefix
      exact absurd hprefix.length_le (by simp)
    · rw [heq] at h
      obtain ⟨assigned, ha⟩ := ih h
      refine ⟨(owner, i) :: assigned, .cons htakes ha.takes, ?_, ?_, ?_, ?_⟩
      · rw [map_cons, nodup_cons]
        refine ⟨?_, ha.owners_nodup⟩
        intro hmem
        obtain ⟨pair, hpair, hsnd⟩ := mem_map.mp hmem
        exact ha.owners_free pair hpair (by rw [hsnd]; simp)
      · intro pair hpair
        rcases mem_cons.mp hpair with rfl | hpair
        · exact howner
        · exact fun hmem => ha.owners_free pair hpair (mem_cons_of_mem _ hmem)
      · rw [map_cons, nodup_cons]
        refine ⟨?_, ha.sites_nodup⟩
        intro hmem
        obtain ⟨other, hother, hkey⟩ := mem_map.mp hmem
        exact ha.sites_free other hother (by rw [hkey]; simp)
      · intro other hother
        rcases mem_cons.mp hother with rfl | hother
        · exact hsite
        · exact fun hmem => ha.sites_free other hother (mem_cons_of_mem _ hmem)

/-- **A run over assigned candidates** reports nothing and claims exactly what they take. -/
theorem foldl_of_assigned :
    ∀ {candidates : List MachOSectionTransitionCandidate}
      {assigned : List (MachOOutputOwner × Nat)} {state : ClaimState},
      Assigned owners state candidates assigned →
        candidates.foldl (claimCandidate owners) state
          = ⟨state.diagnostics, state.transitions ++ transitionsOf candidates assigned,
            (assigned.map Prod.snd).reverse ++ state.claimedOwners,
            (candidates.map (·.currentKey)).reverse ++ state.claimedCurrentSites⟩ := by
  intro candidates
  induction candidates with
  | nil =>
    intro assigned state h
    cases h.takes
    simp [transitionsOf]
  | cons candidate rest ih =>
    intro assigned state h
    obtain ⟨takes, owners_nodup, owners_free, sites_nodup, sites_free⟩ := h
    cases takes with
    | cons htakes hrest =>
      rename_i pair assigned
      rw [map_cons, nodup_cons] at owners_nodup sites_nodup
      rw [foldl_cons, claimCandidate_of_takes htakes (owners_free _ (by simp))
        (sites_free _ (by simp)), ih ⟨hrest, owners_nodup.2, ?_, sites_nodup.2, ?_⟩]
      · simp [transitionsOf]
      · intro other hother hmem
        rcases mem_cons.mp hmem with heq | hmem
        · exact owners_nodup.1 (mem_map.mpr ⟨other, hother, heq⟩)
        · exact owners_free other (mem_cons_of_mem _ hother) hmem
      · intro other hother hmem
        rcases mem_cons.mp hmem with heq | hmem
        · exact sites_nodup.1 (mem_map.mpr ⟨other, hother, heq⟩)
        · exact sites_free other (mem_cons_of_mem _ hother) hmem

/-! ## 6. The candidates as a bijection -/

theorem ownerMatches_iff :
    ownerMatches candidate owner = true
      ↔ owner.key = candidate.previousKey ∧ owner.allocation = candidate.previousAllocation := by
  simp [ownerMatches]

/-- An assignment that reaches every owner, from a bijection. -/
theorem exists_assignment (hsame : ∀ c ∈ candidates, c.previousAllocation = c.currentAllocation)
    (hmatch : CandidatesMatchOwners owners candidates) :
    ∃ assigned, Forall₂ (Takes owners) candidates assigned
      ∧ (assigned.map Prod.snd).Nodup ∧ ∀ i < owners.length, i ∈ assigned.map Prod.snd := by
  obtain ⟨f, ⟨hinj, hsurj⟩, hf⟩ := hmatch
  have hmap : (ofFn fun c => (owners[f c], (f c : Nat))).map Prod.snd
      = ofFn fun c => (f c : Nat) := by
    rw [map_ofFn]
    rfl
  refine ⟨ofFn fun c => (owners[f c], (f c : Nat)), ?_, ?_, ?_⟩
  · rw [forall₂_iff_get]
    refine ⟨by simp, ?_⟩
    intro c hc hc'
    have htakes : Takes owners candidates[c] (owners[f ⟨c, hc⟩], (f ⟨c, hc⟩ : Nat)) := by
      refine ⟨hsame _ (getElem_mem _), matchingOwners_eq_singleton_iff.mpr ⟨by simp, ?_, ?_⟩⟩
      · exact ownerMatches_iff.mpr ((hf ⟨c, hc⟩ (f ⟨c, hc⟩)).mpr rfl)
      · intro j other hj hother
        obtain ⟨hlt, rfl⟩ := List.getElem?_eq_some_iff.mp hj
        have := (hf ⟨c, hc⟩ ⟨j, hlt⟩).mp (ownerMatches_iff.mp hother)
        rw [this]
    simpa using htakes
  · rw [hmap, nodup_ofFn]
    exact fun a b h => hinj (Fin.ext h)
  · intro i hi
    obtain ⟨c, hc⟩ := hsurj ⟨i, hi⟩
    rw [hmap, mem_ofFn]
    exact ⟨c, by simp [hc]⟩

section

variable (htakes : Forall₂ (Takes owners) candidates assigned)
  (hnodup : (assigned.map Prod.snd).Nodup) (hall : ∀ i < owners.length, i ∈ assigned.map Prod.snd)
include htakes hnodup hall

/-- And a bijection from an assignment that reaches every owner. -/
theorem candidatesMatchOwners_of_assignment :
    CandidatesMatchOwners owners candidates := by
  obtain ⟨hlen, hget⟩ := (forall₂_iff_get).mp htakes
  have hsingle : ∀ c : Fin candidates.length,
      matchingOwners owners candidates[c] = [(assigned.get (c.cast hlen))] := by
    intro c
    exact (hget c.1 c.2 (hlen ▸ c.2)).2
  have hlt : ∀ c : Fin candidates.length, (assigned.get (c.cast hlen)).2 < owners.length := by
    intro c
    have h := (matchingOwners_eq_singleton_iff.mp (hsingle c)).1
    exact (List.getElem?_eq_some_iff.mp h).1
  refine ⟨fun c => ⟨(assigned.get (c.cast hlen)).2, hlt c⟩, ⟨?_, ?_⟩, ?_⟩
  · intro a b hab
    have hbound : ∀ c : Fin candidates.length, c.1 < (assigned.map Prod.snd).length := by
      intro c
      rw [length_map, ← hlen]
      exact c.2
    have hsnd : (assigned.map Prod.snd).get ⟨a.1, hbound a⟩
        = (assigned.map Prod.snd).get ⟨b.1, hbound b⟩ := by
      simpa using hab
    exact Fin.ext (Fin.mk.inj (nodup_iff_injective_get.mp hnodup hsnd))
  · rintro ⟨i, hi⟩
    obtain ⟨pair, hpair, hsnd⟩ := mem_map.mp (hall i hi)
    obtain ⟨n, hn⟩ := mem_iff_get.mp hpair
    refine ⟨n.cast hlen.symm, Fin.ext ?_⟩
    have hval : (assigned.get n).2 = i := by rw [hn, hsnd]
    exact hval
  · intro c o
    obtain ⟨hgetc, hmatch, hunique⟩ := matchingOwners_eq_singleton_iff.mp (hsingle c)
    constructor
    · intro h
      exact Fin.ext (hunique o owners[o] (by simp) (ownerMatches_iff.mpr h)).symm
    · rintro rfl
      obtain ⟨hlt', heq⟩ := List.getElem?_eq_some_iff.mp hgetc
      rw [← heq] at hmatch
      exact ownerMatches_iff.mp hmatch

/-- The transitions of an assignment that reaches every owner once are the owners, in another
order. -/
theorem transitionsOf_owners_perm :
    ((transitionsOf candidates assigned).map (·.owner)).Perm owners := by
  have hget : ∀ pair ∈ assigned, owners[pair.2]? = some pair.1 := by
    intro pair hpair
    obtain ⟨n, rfl⟩ := mem_iff_get.mp hpair
    obtain ⟨hlen, htakes⟩ := forall₂_iff_get.mp htakes
    exact (matchingOwners_eq_singleton_iff.mp (htakes n.1 (by omega) n.2).2).1
  have howners : (transitionsOf candidates assigned).map (·.owner) = assigned.map Prod.fst := by
    clear hget hnodup hall
    induction htakes with
    | nil => rfl
    | cons _ _ ih =>
      rw [map_cons, ← ih]
      rfl
  have hperm : assigned.Perm owners.zipIdx := by
    have hzip : (owners.zipIdx.map Prod.snd).Nodup := by
      rw [zipIdx_map_snd]
      exact nodup_range'
    refine (perm_ext_iff_of_nodup (hnodup.of_map _) (hzip.of_map _)).mpr ?_
    rintro ⟨owner, i⟩
    rw [mem_zipIdx_iff_getElem?]
    constructor
    · exact hget (owner, i)
    · intro h
      obtain ⟨pair, hpair, rfl⟩ := mem_map.mp (hall i (List.getElem?_eq_some_iff.mp h).1)
      have hfst : owner = pair.1 := by
        have := hget pair hpair
        rwa [h, some.injEq] at this
      rw [hfst]
      exact hpair
  rw [howners]
  have := hperm.map Prod.fst
  rwa [zipIdx_map_fst] at this

end

/-- Disjoint owners are distinct. -/
theorem OwnersDisjoint.nodup (h : OwnersDisjoint owners) :
    owners.Nodup := by
  refine h.2.imp_of_mem ?_
  rintro a b ha - hapart rfl
  have hpos : 0 < a.allocation.outputSize.toNat := by
    rcases Nat.eq_zero_or_pos a.allocation.outputSize.toNat with h0 | h0
    · exact absurd (UInt64.toNat_inj.mp h0) (h.1 a ha).1
    · exact h0
  unfold Interval.Apart MachOOutputAllocation.interval at hapart
  simp only at hapart
  omega

/-! ## 7. Complete plans -/

theorem assigned_start :
    Assigned owners ⟨[], [], [], []⟩ candidates assigned
      ↔ Forall₂ (Takes owners) candidates assigned ∧ (assigned.map Prod.snd).Nodup
        ∧ (candidates.map (·.currentKey)).Nodup := by
  constructor
  · intro h
    exact ⟨h.takes, h.owners_nodup, h.sites_nodup⟩
  · rintro ⟨htakes, howners, hsites⟩
    exact ⟨htakes, howners, by simp, hsites, by simp⟩

/-- The loop over the candidates reports nothing when the owners are disjoint and every candidate
has an owner. -/
theorem claimed_clean_iff (inventory : MachOCohortInventory) :
    (inventory.candidates.foldl (claimCandidate inventory.owners)
        ⟨outputOwnerDiagnostics inventory.owners, [], [], []⟩).diagnostics = []
      ↔ OwnersDisjoint inventory.owners
        ∧ ∃ assigned, Assigned inventory.owners ⟨[], [], [], []⟩ inventory.candidates assigned := by
  constructor
  · intro h
    have hprefix := isPrefix_foldl_claimCandidate inventory.owners inventory.candidates
      ⟨outputOwnerDiagnostics inventory.owners, [], [], []⟩
    rw [h] at hprefix
    have howners : outputOwnerDiagnostics inventory.owners = [] := prefix_nil.mp hprefix
    rw [howners] at h
    exact ⟨(outputOwnerDiagnostics_eq_nil_iff _).mp howners, assigned_of_foldl h⟩
  · rintro ⟨howners, assigned, h⟩
    rw [(outputOwnerDiagnostics_eq_nil_iff _).mpr howners, foldl_of_assigned h]

theorem plan_transitions_of_assigned {inventory : MachOCohortInventory}
    (howners : OwnersDisjoint inventory.owners)
    (h : Assigned inventory.owners ⟨[], [], [], []⟩ inventory.candidates assigned) :
    (planMachoOwnershipTransitions inventory).transitions
      = transitionsOf inventory.candidates assigned := by
  simp only [planMachoOwnershipTransitions, (outputOwnerDiagnostics_eq_nil_iff _).mpr howners,
    foldl_of_assigned h, nil_append]

/-- No owner is reported unclaimed when the assignment reaches all of them. -/
theorem unclaimed_eq_nil_iff (owners : List MachOOutputOwner) (claimedOwners : List Nat) :
    owners.zipIdx.filter (fun pair => pair.2 ∉ claimedOwners) = []
      ↔ ∀ i < owners.length, i ∈ claimedOwners := by
  rw [filter_eq_nil_iff]
  constructor
  · intro h i hi
    have := h (owners[i], i) (mem_zipIdx_iff_getElem?.mpr (by simp))
    simpa using this
  · rintro h ⟨owner, i⟩ hmem
    have hi := (List.getElem?_eq_some_iff.mp (mem_zipIdx_iff_getElem?.mp hmem)).1
    simpa using h i hi

/-- A complete plan, with the owner of every candidate. -/
theorem plan_complete_iff_assigned (inventory : MachOCohortInventory) :
    (planMachoOwnershipTransitions inventory).isComplete = true
      ↔ OwnersDisjoint inventory.owners
        ∧ (∃ assigned, Assigned inventory.owners ⟨[], [], [], []⟩ inventory.candidates assigned
          ∧ ∀ i < inventory.owners.length, i ∈ assigned.map Prod.snd)
        ∧ (validateCoverage inventory.coverageRequirements inventory.coverageClaims
          (planMachoOwnershipTransitions inventory).transitions).2 = [] := by
  simp only [MachOOwnershipTransitionPlan.isComplete, planMachoOwnershipTransitions,
    List.isEmpty_iff, append_eq_nil_iff, map_eq_nil_iff, claimed_clean_iff,
    unclaimed_eq_nil_iff]
  constructor
  · rintro ⟨⟨⟨howners, assigned, h⟩, hall⟩, hcoverage⟩
    refine ⟨howners, ⟨assigned, h, ?_⟩, hcoverage⟩
    simpa [(outputOwnerDiagnostics_eq_nil_iff _).mpr howners, foldl_of_assigned h] using hall
  · rintro ⟨howners, ⟨assigned, h, hall⟩, hcoverage⟩
    refine ⟨⟨⟨howners, assigned, h⟩, ?_⟩, hcoverage⟩
    simpa [(outputOwnerDiagnostics_eq_nil_iff _).mpr howners, foldl_of_assigned h] using hall

/-- **A plan is complete exactly when the inventory is consistent**: the owners are disjoint
ranges of the output; the candidates keep their allocations and match the owners one to one;
their current keys are distinct; the requirements and the claims are disjoint ranges and the same
ones; and every transition has the bytes of its two sections required.  The transitions of a
complete plan list every owner exactly once. -/
theorem ownership_plan_complete_iff (inventory : MachOCohortInventory) :
    ((planMachoOwnershipTransitions inventory).isComplete = true
      ↔ OwnersDisjoint inventory.owners
        ∧ ((∀ c ∈ inventory.candidates, c.previousAllocation = c.currentAllocation)
          ∧ CandidatesMatchOwners inventory.owners inventory.candidates)
        ∧ (inventory.candidates.map (·.currentKey)).Nodup
        ∧ (RangesDisjoint inventory.coverageRequirements ∧ RangesDisjoint inventory.coverageClaims
          ∧ ∀ r, r ∈ inventory.coverageRequirements ↔ r ∈ inventory.coverageClaims)
        ∧ TransitionsCovered inventory.coverageRequirements
          (planMachoOwnershipTransitions inventory).transitions)
    ∧ ((planMachoOwnershipTransitions inventory).isComplete = true →
      ((planMachoOwnershipTransitions inventory).transitions.map (·.owner)).Perm inventory.owners
        ∧ inventory.owners.Nodup) := by
  rw [plan_complete_iff_assigned, validateCoverage_eq_nil_iff]
  simp only [assigned_start]
  refine ⟨⟨?_, ?_⟩, ?_⟩
  · rintro ⟨howners, ⟨assigned, ⟨htakes, hnodup, hsites⟩, hall⟩, hreqs, hclaims, hsame, hcovered⟩
    refine ⟨howners, ⟨?_, candidatesMatchOwners_of_assignment htakes hnodup hall⟩, hsites,
      ⟨hreqs, hclaims, hsame⟩, hcovered⟩
    intro c hc
    obtain ⟨n, rfl⟩ := mem_iff_get.mp hc
    obtain ⟨hlen, hget⟩ := forall₂_iff_get.mp htakes
    exact (hget n.1 n.2 (hlen ▸ n.2)).1
  · rintro ⟨howners, ⟨hsame, hmatch⟩, hsites, ⟨hreqs, hclaims, hranges⟩, hcovered⟩
    obtain ⟨assigned, htakes, hnodup, hall⟩ := exists_assignment hsame hmatch
    exact ⟨howners, ⟨assigned, ⟨htakes, hnodup, hsites⟩, hall⟩, hreqs, hclaims, hranges, hcovered⟩
  · rintro ⟨howners, ⟨assigned, ⟨htakes, hnodup, hsites⟩, hall⟩, -⟩
    rw [plan_transitions_of_assigned howners (assigned_start.mpr ⟨htakes, hnodup, hsites⟩)]
    exact ⟨transitionsOf_owners_perm htakes hnodup hall, howners.nodup⟩

end Srs.Incremental
