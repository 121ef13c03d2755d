/-
# Archive transactions undo to the right bytes

Three results.  A rollback patch of a new cohort holds what the rollback patches of the retired ones
leave (`storedMachoArchiveRollbackPatch_correct`).  After dormant states were refreshed their
rollback patches are in the output, and only patches that some active cohort put there have changed
(`refreshDormant_correct`).  After an active state was refreshed its forward patches are in the
output, and its unwind information is what it was (`refreshActive_correct`).
-/
import Srs.Incremental.MachOArchiveRollback

namespace Srs.Incremental

open Buffers List Option Except StoredOutputPatch

/-! ## 1. Patches and the output -/

variable {patch rollback : StoredOutputPatch} {α β : Type} {unwind : List (Nat × Nat)}
  {currentOutput : Bytes}

theorem patchRange_eq_ok {overflowed : String} {range : Nat × Nat} :
    patchRange patch overflowed = .ok range ↔
      patch.outputOffset.toNat + patch.data.length < 2 ^ 64 ∧
        range = (patch.outputOffset.toNat, patch.outputOffset.toNat + patch.data.length) := by
  rw [patchRange, bind_eq_ok]
  constructor
  · rintro ⟨_, hfits, hrange⟩
    rw [failIf_eq_ok, Nat.not_le] at hfits
    exact ⟨hfits, (ok.inj hrange).symm⟩
  · rintro ⟨hfits, rfl⟩
    exact ⟨(), failIf_eq_ok.mpr (Nat.not_le.mpr hfits), rfl⟩

/-- The patch lies in the output. -/
def StoredOutputPatch.Fits (patch : StoredOutputPatch) (output : Bytes) : Prop :=
  patch.outputOffset.toNat + patch.data.length ≤ output.length

instance (patch : StoredOutputPatch) (output : Bytes) : Decidable (patch.Fits output) :=
  inferInstanceAs (Decidable (_ ≤ _))

/-- The patch has no byte in the range. -/
def StoredOutputPatch.Apart (patch : StoredOutputPatch) (start stop : Nat) : Prop :=
  patch.outputOffset.toNat + patch.data.length ≤ start ∨ stop ≤ patch.outputOffset.toNat

/-- The patch covers the range and no more. -/
def StoredOutputPatch.Covers (patch : StoredOutputPatch) (start stop : Nat) : Prop :=
  patch.outputOffset.toNat = start ∧ patch.outputOffset.toNat + patch.data.length = stop

theorem slice_applyStoredPatches_of_apart {start stop : Nat} :
    ∀ {patches : List StoredOutputPatch} {output : Bytes},
      (∀ patch ∈ patches, patch.Fits output) → (∀ patch ∈ patches, patch.Apart start stop) →
        slice (applyStoredPatches output patches) start stop = slice output start stop
  | [], _, _, _ => rfl
  | patch :: patches, output, hfits, hapart => by
    have hfit := hfits patch mem_cons_self
    have hlen : (applyStoredPatch output patch).length = output.length := length_splice hfit
    rw [applyStoredPatches, foldl_cons]
    refine (@slice_applyStoredPatches_of_apart _ _ patches _ (fun p hp => ?_)
      fun p hp => hapart p (mem_cons_of_mem _ hp)).trans ?_
    · rw [StoredOutputPatch.Fits, hlen]
      exact hfits p (mem_cons_of_mem _ hp)
    · exact slice_splice_of_apart hfit (hapart patch mem_cons_self)

/-- Patches that are beside the range or put the same bytes there, one of them at least. -/
theorem slice_applyStoredPatches_of_covers {start stop : Nat} {data : Bytes} :
    ∀ {patches : List StoredOutputPatch} {output : Bytes},
      (∀ patch ∈ patches, patch.Fits output) →
      (∀ patch ∈ patches, patch.Apart start stop ∨ (patch.Covers start stop ∧ patch.data = data)) →
      (slice output start stop = some data ∨
        ∃ patch ∈ patches, patch.Covers start stop ∧ patch.data = data) →
        slice (applyStoredPatches output patches) start stop = some data
  | [], output, _, _, h => by
    rcases h with h | ⟨patch, hpatch, -⟩
    · exact h
    · cases hpatch
  | patch :: patches, output, hfits, hsame, h => by
    have hfit := hfits patch mem_cons_self
    have hlen : (applyStoredPatch output patch).length = output.length := length_splice hfit
    have hcovers : patch.Covers start stop ∧ patch.data = data →
        slice (applyStoredPatch output patch) start stop = some data := by
      rintro ⟨⟨rfl, rfl⟩, rfl⟩
      exact slice_splice_self hfit
    rw [applyStoredPatches, foldl_cons]
    refine @slice_applyStoredPatches_of_covers _ _ _ patches _ (fun p hp => ?_)
      (fun p hp => hsame p (mem_cons_of_mem _ hp)) ?_
    · rw [StoredOutputPatch.Fits, hlen]
      exact hfits p (mem_cons_of_mem _ hp)
    · rcases h with hout | ⟨p, hp, hpsame⟩
      · refine .inl ?_
        rcases hsame patch mem_cons_self with hapart | hcover
        · exact (slice_splice_of_apart hfit hapart).trans hout
        · exact hcovers hcover
      · rcases mem_cons.mp hp with rfl | hp
        · exact .inl (hcovers hpsame)
        · exact .inr ⟨p, hp, hpsame⟩

/-! ## 2. A new cohort -/

variable {start stop : Nat}

/-- One turn of the loop. -/
theorem composeRollback_eq_ok {composed composed' : Option Bytes}
    (h : composeRollback start stop composed rollback = .ok composed') :
    (rollback.Apart start stop ∧ composed' = composed) ∨
      (rollback.Covers start stop ∧ composed' = some rollback.data ∧
        (composed = none ∨ composed = composed')) := by
  obtain ⟨range, hrange, h⟩ := bind_eq_ok.mp h
  obtain ⟨-, rfl⟩ := patchRange_eq_ok.mp hrange
  dsimp only at h
  split at h
  · rename_i hapart
    exact .inl ⟨hapart, (ok.inj h).symm⟩
  · obtain ⟨_, hexact, h⟩ := bind_eq_ok.mp h
    obtain ⟨_, hsame, h⟩ := bind_eq_ok.mp h
    cases h
    rw [failIf_eq_ok, not_or, not_not, not_not] at hexact
    rw [failIf_eq_ok] at hsame
    refine .inr ⟨⟨hexact.1.symm, hexact.2.symm⟩, rfl, ?_⟩
    cases composed with
    | none => exact .inl rfl
    | some data =>
      have hdata : data = rollback.data := by simpa using hsame
      exact .inr (congrArg some hdata)

/-- The whole loop: what it composes is what every patch that is not beside the range has. -/
theorem foldlM_composeRollback : ∀ {rollbacks : List StoredOutputPatch}
    {composed composed' : Option Bytes},
    rollbacks.foldlM (composeRollback start stop) composed = .ok composed' →
      (∀ data, composed = some data → composed' = some data) ∧
      (∀ rollback ∈ rollbacks, rollback.Apart start stop ∨
        (rollback.Covers start stop ∧ composed' = some rollback.data)) ∧
      (composed' = composed ∨
        ∃ rollback ∈ rollbacks, rollback.Covers start stop ∧ composed' = some rollback.data)
  | [], composed, composed', h => by
    cases h
    exact ⟨fun _ h => h, fun _ h => absurd h not_mem_nil, .inl rfl⟩
  | rollback :: rollbacks, composed, composed', h => by
    rw [foldlM_cons] at h
    obtain ⟨next, hnext, hrest⟩ := bind_eq_ok.mp h
    obtain ⟨hkeeps, hall, hfrom⟩ := foldlM_composeRollback hrest
    rcases composeRollback_eq_ok hnext with ⟨hapart, rfl⟩ | ⟨hcovers, rfl, hsame⟩
    · refine ⟨hkeeps, fun r hr => ?_, ?_⟩
      · rcases mem_cons.mp hr with rfl | hr
        · exact .inl hapart
        · exact hall r hr
      · rcases hfrom with hfrom | ⟨r, hr, hfound⟩
        · exact .inl hfrom
        · exact .inr ⟨r, mem_cons_of_mem _ hr, hfound⟩
    · have hdata := hkeeps _ rfl
      refine ⟨fun data hdata' => ?_, fun r hr => ?_, .inr ⟨rollback, mem_cons_self,
        hcovers, hdata⟩⟩
      · rcases hsame with hnone | hsome
        · rw [hnone] at hdata'
          cases hdata'
        · rw [hdata, ← hsome, hdata']
      · rcases mem_cons.mp hr with rfl | hr
        · exact .inr ⟨hcovers, hdata⟩
        · exact hall r hr

/-- **The rollback patch of a new cohort** has the bytes that the retired ones leave, in whichever
order their rollback patches are written. -/
theorem storedMachoArchiveRollbackPatch_correct {forward : StoredOutputPatch}
    {previousOutput : Bytes} {retired : List MachOArchiveActivationState}
    {written : List StoredOutputPatch}
    (hwritten : written.Perm (retired.flatMap (·.rollbackPatches)))
    (hfits : ∀ state ∈ retired, ∀ patch ∈ state.rollbackPatches, patch.Fits previousOutput)
    (h : storedMachoArchiveRollbackPatch forward previousOutput retired = .ok rollback) :
    rollback.outputOffset = forward.outputOffset ∧
      bytesUnder (applyStoredPatches previousOutput written) forward = some rollback.data := by
  obtain ⟨range, hrange, h⟩ := bind_eq_ok.mp h
  obtain ⟨-, rfl⟩ := patchRange_eq_ok.mp hrange
  obtain ⟨composed, hcomposed, h⟩ := bind_eq_ok.mp h
  obtain ⟨data, hdata, h⟩ := bind_eq_ok.mp h
  cases h
  rw [context_eq_ok] at hdata
  obtain ⟨-, hall, hfrom⟩ := foldlM_composeRollback hcomposed
  have hfits' : ∀ patch ∈ written, patch.Fits previousOutput := by
    intro patch hpatch
    obtain ⟨state, hstate, hmem⟩ := mem_flatMap.mp (hwritten.mem_iff.mp hpatch)
    exact hfits state hstate patch hmem
  refine ⟨rfl, ?_⟩
  cases composed with
  | none =>
    refine (slice_applyStoredPatches_of_apart hfits' fun patch hpatch => ?_).trans hdata
    rcases hall patch (hwritten.mem_iff.mp hpatch) with hapart | ⟨-, hsome⟩
    · exact hapart
    · cases hsome
  | some composed =>
    cases hdata
    refine slice_applyStoredPatches_of_covers hfits' (fun patch hpatch => ?_) (.inr ?_)
    · rcases hall patch (hwritten.mem_iff.mp hpatch) with hapart | ⟨hcovers, hsome⟩
      · exact .inl hapart
      · exact .inr ⟨hcovers, (some.inj hsome).symm⟩
    · rcases hfrom with hnone | ⟨patch, hpatch, hcovers, hsome⟩
      · cases hnone
      · exact ⟨patch, hwritten.mem_iff.mpr hpatch, hcovers, (some.inj hsome).symm⟩

variable {R : α → β → Prop} {l : List α} {l' : List β}

theorem exists_of_forall₂_left
    (h : Forall₂ R l l') : ∀ {a : α}, a ∈ l → ∃ b ∈ l', R a b := by
  induction h with
  | nil => exact fun ha => absurd ha not_mem_nil
  | @cons a b l l' hab _ ih =>
    intro a' ha'
    rcases mem_cons.mp ha' with rfl | ha'
    · exact ⟨b, mem_cons_self, hab⟩
    · obtain ⟨b', hb', hr⟩ := ih ha'
      exact ⟨b', mem_cons_of_mem _ hb', hr⟩

theorem exists_of_forall₂_right
    (h : Forall₂ R l l') {b : β} (hb : b ∈ l') : ∃ a ∈ l, R a b :=
  exists_of_forall₂_left h.flip hb

/-! ## 3. What a dormant rollback patch is refreshed with -/

/-- The owned patch has bytes in the range of the rollback patch. -/
def Shadows (rollback : StoredOutputPatch)
    (owned : MachOArchiveActivationState × StoredOutputPatch) : Prop :=
  ¬ owned.2.Apart rollback.outputOffset.toNat (rollback.outputOffset.toNat + rollback.data.length)

instance (rollback : StoredOutputPatch) (owned : MachOArchiveActivationState × StoredOutputPatch) :
    Decidable (Shadows rollback owned) := inferInstanceAs (Decidable (¬ (_ ∨ _)))

/-- One forward patch of the active states shadows the rollback patch, has the same range, and gives
it its data. -/
def ReplacedBy (states : List MachOArchiveActivationState) (before after : StoredOutputPatch) :
    Prop :=
  ∃ active forward, (activeForwards states).filter (Shadows before) = [(active, forward)] ∧
    forward.outputOffset = before.outputOffset ∧ forward.data.length = before.data.length ∧
    after = { before with data := forward.data }

theorem replacementStep_eq_ok {found found' : Option Bytes}
    {owned : MachOArchiveActivationState × StoredOutputPatch}
    (h : replacementStep rollback.outputOffset.toNat
      (rollback.outputOffset.toNat + rollback.data.length) found owned = .ok found') :
    (¬ Shadows rollback owned ∧ found' = found) ∨
      (Shadows rollback owned ∧ found = none ∧ found' = some owned.2.data ∧
        owned.2.outputOffset = rollback.outputOffset ∧
        owned.2.data.length = rollback.data.length) := by
  obtain ⟨range, hrange, h⟩ := bind_eq_ok.mp h
  obtain ⟨-, rfl⟩ := patchRange_eq_ok.mp hrange
  dsimp only at h
  split at h
  · rename_i hapart
    exact .inl ⟨not_not.mpr hapart, (ok.inj h).symm⟩
  · rename_i hshadows
    obtain ⟨_, -, h⟩ := bind_eq_ok.mp h
    obtain ⟨_, hexact, h⟩ := bind_eq_ok.mp h
    obtain ⟨_, hfirst, h⟩ := bind_eq_ok.mp h
    rw [failIf_eq_ok, not_or, not_not, not_not] at hexact
    rw [failIf_eq_ok, Bool.not_eq_true, isSome_eq_false_iff, isNone_iff_eq_none]
      at hfirst
    obtain ⟨hstart, hstop⟩ := hexact
    refine .inr ⟨hshadows, hfirst, (ok.inj h).symm, UInt64.toNat_inj.mp hstart.symm, ?_⟩
    omega

/-- The search: nothing shadows the patch, or one does and is found. -/
theorem foldlM_replacementStep :
    ∀ {owned : List (MachOArchiveActivationState × StoredOutputPatch)}
      {found found' : Option Bytes},
      owned.foldlM (replacementStep rollback.outputOffset.toNat
        (rollback.outputOffset.toNat + rollback.data.length)) found = .ok found' →
        (owned.filter (Shadows rollback) = [] ∧ found' = found) ∨
          (found = none ∧ ∃ o, owned.filter (Shadows rollback) = [o] ∧ found' = some o.2.data ∧
            o.2.outputOffset = rollback.outputOffset ∧ o.2.data.length = rollback.data.length)
  | [], found, found', h => .inl ⟨rfl, (ok.inj h).symm⟩
  | o :: owned, found, found', h => by
    rw [foldlM_cons] at h
    obtain ⟨next, hnext, hrest⟩ := bind_eq_ok.mp h
    have ih := foldlM_replacementStep hrest
    rcases replacementStep_eq_ok hnext with ⟨hbeside, rfl⟩ | ⟨hshadows, rfl, rfl, hoffset, hlen⟩
    · rw [filter_cons_of_neg (by simpa using hbeside)]
      exact ih
    · rw [filter_cons_of_pos (by simpa using hshadows)]
      rcases ih with ⟨hnone, rfl⟩ | ⟨hfound, -⟩
      · exact .inr ⟨rfl, o, by rw [hnone], rfl, hoffset, hlen⟩
      · cases hfound

variable {states : List MachOArchiveActivationState}

/-- The patch is in the output, or is replaced by what is. -/
theorem refreshedData_eq_ok {refreshed : Option Bytes}
    (h : refreshedData states unwind currentOutput rollback = .ok refreshed) :
    rollback.outputOffset.toNat + rollback.data.length < 2 ^ 64 ∧
      match refreshed with
      | none => bytesUnder currentOutput rollback = some rollback.data
      | some data => bytesUnder currentOutput rollback = some data ∧
          ReplacedBy states rollback { rollback with data } := by
  obtain ⟨range, hrange, h⟩ := bind_eq_ok.mp h
  obtain ⟨hbound, rfl⟩ := patchRange_eq_ok.mp hrange
  obtain ⟨actual, hactual, h⟩ := bind_eq_ok.mp h
  obtain ⟨replacement, hsearch, h⟩ := bind_eq_ok.mp h
  rw [context_eq_ok] at hactual
  refine ⟨hbound, ?_⟩
  cases replacement with
  | none =>
    dsimp only at h
    split at h
    · rename_i hsame
      cases h
      exact hactual.trans (congrArg some hsame)
    · cases h
  | some replacement =>
    dsimp only at h
    split at h
    · rename_i hsame
      cases h
      exact hactual.trans (congrArg some hsame.2)
    · split at h
      · rename_i hsame
        obtain ⟨overlaps, -, h⟩ := bind_eq_ok.mp h
        obtain ⟨_, -, h⟩ := bind_eq_ok.mp h
        cases h
        refine ⟨hactual, ?_⟩
        rcases foldlM_replacementStep hsearch with ⟨-, hnone⟩ | ⟨-, o, honly, hdata, hoffset, hlen⟩
        · cases hnone
        · refine ⟨o.1, o.2, honly, hoffset, hlen, ?_⟩
          rw [hsame, some.inj hdata]
      · cases h

/-! ## 4. Refreshing dormant states -/

/-- A state of the input files. -/
def stateAt (inputFiles : List FileState) (stateRef : RetiredMachOArchiveStateRef) :
    Option MachOArchiveActivationState :=
  ((inputFiles[stateRef.inputIndex]?).bind (·.patch)).bind
    (·.machoArchiveMembers[stateRef.stateIndex]?)

/-- The states of an input file. -/
def membersAt (inputFiles : List FileState) (inputIndex : Nat) : List MachOArchiveActivationState :=
  (((inputFiles[inputIndex]?).bind (·.patch)).map (·.machoArchiveMembers)).getD []

def rollbackAt (inputFiles : List FileState) (stateRef : RetiredMachOArchiveStateRef)
    (rollbackIndex : Nat) : Option StoredOutputPatch :=
  (stateAt inputFiles stateRef).bind (·.rollbackPatches[rollbackIndex]?)

/-- The update is for the rollback patch. -/
def RollbackUpdate.IsFor (update : RollbackUpdate) (stateRef : RetiredMachOArchiveStateRef)
    (rollbackIndex : Nat) : Prop :=
  update.stateRef = stateRef ∧ update.rollbackIndex = rollbackIndex

section

variable (inputFiles : List FileState) (update : RollbackUpdate)
  (stateRef : RetiredMachOArchiveStateRef)
include inputFiles update stateRef

theorem stateAt_applyUpdate :
    stateAt (applyUpdate inputFiles update) stateRef =
      if update.stateRef = stateRef then
        (stateAt inputFiles stateRef).map (setRollbackData update.rollbackIndex update.data)
      else stateAt inputFiles stateRef := by
  obtain ⟨⟨i, j⟩, k, data⟩ := update
  obtain ⟨i', j'⟩ := stateRef
  simp only [stateAt, applyUpdate, getElem?_modify, RetiredMachOArchiveStateRef.mk.injEq]
  by_cases hi : i = i'
  · subst hi
    cases hfile : inputFiles[i]? with
    | none => simp
    | some input =>
      cases hpatch : input.patch with
      | none => simp [setFileRollbackData, hpatch]
      | some patch =>
        by_cases hj : j = j'
        · simp [setFileRollbackData, hpatch, hj]
        · simp [setFileRollbackData, hpatch, hj]
  · simp [hi]

theorem rollbackAt_applyUpdate
    (k : Nat) [Decidable (update.IsFor stateRef k)] :
    rollbackAt (applyUpdate inputFiles update) stateRef k =
      if update.IsFor stateRef k then
        (rollbackAt inputFiles stateRef k).map ({ · with data := update.data })
      else rollbackAt inputFiles stateRef k := by
  rw [rollbackAt, rollbackAt, stateAt_applyUpdate]
  by_cases href : update.stateRef = stateRef
  · rw [if_pos href]
    cases hstate : stateAt inputFiles stateRef with
    | none => simp
    | some state =>
      by_cases hk : update.rollbackIndex = k
      · simp [setRollbackData, RollbackUpdate.IsFor, href, hk]
      · simp [setRollbackData, RollbackUpdate.IsFor, hk]
  · rw [if_neg href, if_neg fun hfor => href hfor.1]

end

theorem stateAt_isSome_foldl (stateRef : RetiredMachOArchiveStateRef) :
    ∀ (updates : List RollbackUpdate) (inputFiles : List FileState),
      (stateAt (updates.foldl applyUpdate inputFiles) stateRef).isSome
        = (stateAt inputFiles stateRef).isSome
  | [], _ => rfl
  | update :: updates, inputFiles => by
    rw [foldl_cons, stateAt_isSome_foldl stateRef updates, stateAt_applyUpdate]
    split
    · exact isSome_map
    · rfl

/-- A rollback patch after all updates: it is what it was, or has the data of one that is for it. -/
theorem rollbackAt_foldl {stateRef : RetiredMachOArchiveStateRef} {k : Nat} :
    ∀ {updates : List RollbackUpdate} {inputFiles : List FileState} {after : StoredOutputPatch},
      rollbackAt (updates.foldl applyUpdate inputFiles) stateRef k = some after →
        ∃ before, rollbackAt inputFiles stateRef k = some before ∧
          ((after = before ∧ ∀ update ∈ updates, ¬ update.IsFor stateRef k) ∨
            ∃ update ∈ updates, update.IsFor stateRef k ∧
              after = { before with data := update.data })
  | [], _, after, h => ⟨after, h, .inl ⟨rfl, fun _ hu => absurd hu not_mem_nil⟩⟩
  | update :: updates, inputFiles, after, h => by
    rw [foldl_cons] at h
    obtain ⟨next, hnext, hafter⟩ := rollbackAt_foldl h
    classical
    rw [rollbackAt_applyUpdate] at hnext
    split at hnext
    · rename_i hfor
      obtain ⟨before, hbefore, rfl⟩ := map_eq_some_iff.mp hnext
      refine ⟨before, hbefore, .inr ?_⟩
      rcases hafter with ⟨rfl, -⟩ | ⟨later, hlater, hlaterFor, rfl⟩
      · exact ⟨update, mem_cons_self, hfor, rfl⟩
      · exact ⟨later, mem_cons_of_mem _ hlater, hlaterFor, rfl⟩
    · rename_i hnot
      refine ⟨next, hnext, hafter.imp (fun ⟨hsame, hnone⟩ => ⟨hsame, fun u hu => ?_⟩)
        fun ⟨later, hlater, hfor⟩ => ⟨later, mem_cons_of_mem _ hlater, hfor⟩⟩
      rcases mem_cons.mp hu with rfl | hu
      · exact hnot
      · exact hnone u hu

/-- A state without the data of its rollback patches. -/
def forgetStateRollbackData (state : MachOArchiveActivationState) : MachOArchiveActivationState :=
  { state with rollbackPatches := state.rollbackPatches.map ({ · with data := [] }) }

/-- An input file without the data of its rollback patches. -/
def forgetRollbackData (input : FileState) : FileState :=
  { input with patch := input.patch.map fun patch =>
      { patch with machoArchiveMembers :=
          patch.machoArchiveMembers.map forgetStateRollbackData } }

theorem map_modify_of_same {g : α → β} {f : α → α} (h : ∀ a, g (f a) = g a) :
    ∀ (l : List α) (i : Nat), (l.modify i f).map g = l.map g
  | [], i => by rw [modify_nil]
  | a :: l, 0 => by rw [modify_zero_cons, map_cons, map_cons, h]
  | a :: l, i + 1 => by
    rw [modify_succ_cons, map_cons, map_cons, map_modify_of_same h l i]

theorem forgetStateRollbackData_set (k : Nat) (data : Bytes) (state : MachOArchiveActivationState) :
    forgetStateRollbackData (setRollbackData k data state) = forgetStateRollbackData state := by
  dsimp only [forgetStateRollbackData, setRollbackData]
  congr 1
  refine map_modify_of_same (fun patch => ?_) state.rollbackPatches k
  rfl

theorem forgetRollbackData_foldl : ∀ (updates : List RollbackUpdate) (inputFiles : List FileState),
    (updates.foldl applyUpdate inputFiles).map forgetRollbackData
      = inputFiles.map forgetRollbackData
  | [], _ => rfl
  | update :: updates, inputFiles => by
    rw [foldl_cons, forgetRollbackData_foldl updates, applyUpdate]
    refine map_modify_of_same (fun input => ?_) _ _
    rw [forgetRollbackData, setFileRollbackData, forgetRollbackData, Option.map_map]
    congr 2
    funext patch
    dsimp only [Function.comp]
    rw [map_modify_of_same fun state => forgetStateRollbackData_set _ _ state]

theorem rollbackUpdates_eq_ok
    {stateRef : RetiredMachOArchiveStateRef} :
    ∀ {rollbacks : List (StoredOutputPatch × Nat)} {updates : List RollbackUpdate},
      rollbackUpdates states unwind currentOutput stateRef rollbacks = .ok updates →
        (∀ rollback k, (rollback, k) ∈ rollbacks →
          (storedOutputPatchMatches currentOutput rollback = true ∨
            ∃ update ∈ updates, update.IsFor stateRef k)) ∧
        ∀ update ∈ updates, ∃ rollback, (rollback, update.rollbackIndex) ∈ rollbacks ∧
          update.stateRef = stateRef ∧
          rollback.outputOffset.toNat + rollback.data.length < 2 ^ 64 ∧
          bytesUnder currentOutput rollback = some update.data ∧
          ReplacedBy states rollback { rollback with data := update.data }
  | [], updates, h => by
    cases h
    exact ⟨fun _ _ hmem => absurd hmem not_mem_nil, fun _ hmem => absurd hmem not_mem_nil⟩
  | (rollback, k) :: rest, updates, h => by
    obtain ⟨data, hdata, h⟩ := bind_eq_ok.mp h
    obtain ⟨later, hlater, h⟩ := bind_eq_ok.mp h
    cases h
    obtain ⟨hcovered, hvalid⟩ := rollbackUpdates_eq_ok hlater
    obtain ⟨hbound, hrefreshed⟩ := refreshedData_eq_ok hdata
    constructor
    · intro rollback' k' hmem
      rcases mem_cons.mp hmem with heq | hmem
      · cases heq
        cases data with
        | none =>
          refine .inl ?_
          rw [storedOutputPatchMatches, Bool.and_eq_true, decide_eq_true_iff, decide_eq_true_iff]
          exact ⟨hbound, hrefreshed⟩
        | some data =>
          exact .inr ⟨_, mem_append_left _ (mem_singleton_self _), rfl, rfl⟩
      · exact (hcovered rollback' k' hmem).imp id fun ⟨update, hupdate, hfor⟩ =>
          ⟨update, mem_append_right _ hupdate, hfor⟩
    · intro update hmem
      rcases mem_append.mp hmem with hmem | hmem
      · cases data with
        | none => cases hmem
        | some data =>
          obtain rfl := mem_singleton.mp hmem
          exact ⟨rollback, mem_cons_self, rfl, hbound, hrefreshed⟩
      · obtain ⟨rollback', hrollback', hrest⟩ := hvalid update hmem
        exact ⟨rollback', mem_cons_of_mem _ hrollback', hrest⟩

section

variable {readSections : Bytes → Option (List OutputSection)}

variable {currentOutput : Bytes}

theorem dormantUpdates_eq_ok {inputFiles : List FileState} :
    ∀ {refs seen : List RetiredMachOArchiveStateRef} {updates : List RollbackUpdate},
      dormantUpdates readSections inputFiles currentOutput seen refs = .ok updates →
        (∀ stateRef ∈ refs, (stateAt inputFiles stateRef).isSome ∧
          ∀ k rollback, rollbackAt inputFiles stateRef k = some rollback →
            (storedOutputPatchMatches currentOutput rollback = true ∨
              ∃ update ∈ updates, update.IsFor stateRef k)) ∧
        ∀ update ∈ updates, update.stateRef ∈ refs ∧ ∃ rollback,
          rollbackAt inputFiles update.stateRef update.rollbackIndex = some rollback ∧
          rollback.outputOffset.toNat + rollback.data.length < 2 ^ 64 ∧
          bytesUnder currentOutput rollback = some update.data ∧
          ReplacedBy (membersAt inputFiles update.stateRef.inputIndex) rollback
            { rollback with data := update.data }
  | [], seen, updates, h => by
    cases h
    exact ⟨fun _ hmem => absurd hmem not_mem_nil, fun _ hmem => absurd hmem not_mem_nil⟩
  | retiredRef :: rest, seen, updates, h => by
    obtain ⟨_, -, h⟩ := bind_eq_ok.mp h
    obtain ⟨patch, hpatch, h⟩ := bind_eq_ok.mp h
    obtain ⟨retired, hretired, h⟩ := bind_eq_ok.mp h
    obtain ⟨_, -, h⟩ := bind_eq_ok.mp h
    obtain ⟨unwind, -, h⟩ := bind_eq_ok.mp h
    obtain ⟨own, hown, h⟩ := bind_eq_ok.mp h
    obtain ⟨later, hlater, h⟩ := bind_eq_ok.mp h
    cases h
    rw [context_eq_ok] at hpatch hretired
    have hstate : stateAt inputFiles retiredRef = some retired := by
      rw [stateAt, hpatch]
      exact (filter_eq_some_iff.mp hretired).1
    have hmembers : membersAt inputFiles retiredRef.inputIndex = patch.machoArchiveMembers := by
      rw [membersAt, hpatch]
      rfl
    have hmem : ∀ k rollback, rollbackAt inputFiles retiredRef k = some rollback ↔
        (rollback, k) ∈ retired.rollbackPatches.zipIdx := by
      intro k rollback
      rw [rollbackAt, hstate]
      exact mk_mem_zipIdx_iff_getElem?.symm
    obtain ⟨hownCovered, hownValid⟩ := rollbackUpdates_eq_ok hown
    obtain ⟨hcovered, hvalid⟩ := dormantUpdates_eq_ok hlater
    constructor
    · intro stateRef href
      rcases mem_cons.mp href with rfl | href
      · refine ⟨by rw [hstate]; rfl, fun k rollback hrollback => ?_⟩
        exact (hownCovered rollback k ((hmem k rollback).mp hrollback)).imp id
          fun ⟨update, hupdate, hfor⟩ => ⟨update, mem_append_left _ hupdate, hfor⟩
      · obtain ⟨hsome, hall⟩ := hcovered stateRef href
        exact ⟨hsome, fun k rollback hrollback => (hall k rollback hrollback).imp id
          fun ⟨update, hupdate, hfor⟩ => ⟨update, mem_append_right _ hupdate, hfor⟩⟩
    · intro update hupdate
      rcases mem_append.mp hupdate with hupdate | hupdate
      · obtain ⟨rollback, hrollback, href, hbound, hbytes, hreplaced⟩ := hownValid update hupdate
        rw [href, hmembers]
        exact ⟨mem_cons_self, rollback, (hmem _ _).mpr hrollback, hbound, hbytes, hreplaced⟩
      · obtain ⟨href, hrest⟩ := hvalid update hupdate
        exact ⟨mem_cons_of_mem _ href, hrest⟩

theorem storedOutputPatchMatches_of_bytes {data : Bytes} {patch : StoredOutputPatch}
    (hbound : patch.outputOffset.toNat + patch.data.length < 2 ^ 64)
    (hbytes : bytesUnder currentOutput patch = some data) :
    storedOutputPatchMatches currentOutput { patch with data } = true := by
  have hlen : data.length = patch.data.length := by
    rw [length_slice hbytes, Nat.add_sub_cancel_left]
  rw [storedOutputPatchMatches, Bool.and_eq_true, decide_eq_true_iff, decide_eq_true_iff]
  dsimp only [bytesUnder]
  rw [hlen]
  exact ⟨hbound, hbytes⟩

/-- **Dormant states are refreshed.**  If that fails nothing changes.  Otherwise the rollback
patches of each state are in the output; nothing but the data of their rollback patches has changed,
and each that has is replaced by a forward patch of one active state. -/
theorem refreshDormant_correct {inputFiles inputFiles' : List FileState}
    {refs : List RetiredMachOArchiveStateRef} {result : Result Nat}
    (h : refreshDormantMachoArchiveRollbackPatches readSections inputFiles refs currentOutput
      = (result, inputFiles')) :
    (∀ message, result = .error message → inputFiles' = inputFiles) ∧
    (∀ count, result = .ok count →
      (∀ stateRef ∈ refs, ∃ state, stateAt inputFiles' stateRef = some state ∧
        storedOutputPatchesMatch state.rollbackPatches currentOutput = true) ∧
      inputFiles'.map forgetRollbackData = inputFiles.map forgetRollbackData ∧
      ∀ stateRef k after, rollbackAt inputFiles' stateRef k = some after →
        ∃ before, rollbackAt inputFiles stateRef k = some before ∧ (after = before ∨
          (stateRef ∈ refs ∧
            ReplacedBy (membersAt inputFiles stateRef.inputIndex) before after))) := by
  rw [refreshDormantMachoArchiveRollbackPatches] at h
  split at h
  · cases h
    exact ⟨fun _ _ => rfl, fun count hcount => by cases hcount⟩
  · rename_i updates hupdates
    cases h
    obtain ⟨hcovered, hvalid⟩ := dormantUpdates_eq_ok hupdates
    refine ⟨fun message hmessage => (by cases hmessage), fun count _ => ⟨fun stateRef href => ?_,
      forgetRollbackData_foldl updates inputFiles, fun stateRef k after hafter => ?_⟩⟩
    · obtain ⟨hsome, hall⟩ := hcovered stateRef href
      rw [← stateAt_isSome_foldl stateRef updates] at hsome
      obtain ⟨state, hstate⟩ := isSome_iff_exists.mp hsome
      refine ⟨state, hstate, all_eq_true.mpr fun after hmem => ?_⟩
      obtain ⟨k, hk⟩ := mem_iff_getElem?.mp hmem
      have hafter : rollbackAt (updates.foldl applyUpdate inputFiles) stateRef k = some after := by
        rw [rollbackAt, hstate]
        exact hk
      obtain ⟨before, hbefore, ⟨rfl, hnone⟩ | ⟨update, hupdate, hfor, rfl⟩⟩ :=
        rollbackAt_foldl hafter
      · rcases hall k after hbefore with hmatches | ⟨update, hupdate, hfor⟩
        · exact hmatches
        · exact absurd hfor (hnone update hupdate)
      · obtain ⟨-, rollback, hrollback, hbound, hbytes, -⟩ := hvalid update hupdate
        rw [hfor.1, hfor.2, hbefore] at hrollback
        cases hrollback
        exact storedOutputPatchMatches_of_bytes hbound hbytes
    · obtain ⟨before, hbefore, ⟨rfl, -⟩ | ⟨update, hupdate, hfor, rfl⟩⟩ := rollbackAt_foldl hafter
      · exact ⟨after, hbefore, .inl rfl⟩
      · obtain ⟨href, rollback, hrollback, -, -, hreplaced⟩ := hvalid update hupdate
        rw [hfor.1] at href hreplaced hrollback
        rw [hfor.2, hbefore] at hrollback
        cases hrollback
        exact ⟨before, hbefore, .inr ⟨href, hreplaced⟩⟩

end

/-! ## 5. Refreshing active states -/

variable {after : StoredOutputPatch} {data : Bytes}

theorem refreshedForward_eq_ok (h : refreshedForward unwind patch data = .ok after) :
    patch.outputOffset.toNat + patch.data.length < 2 ^ 64 ∧ after = { patch with data } ∧
      (Touches patch unwind → after = patch) := by
  obtain ⟨overlaps, hoverlaps, h⟩ := bind_eq_ok.mp h
  obtain ⟨range, hrange, hdecide⟩ := bind_eq_ok.mp hoverlaps
  obtain ⟨hbound, -⟩ := patchRange_eq_ok.mp hrange
  cases hdecide
  refine ⟨hbound, ?_⟩
  split at h
  · obtain ⟨_, hsame, h⟩ := bind_eq_ok.mp h
    cases h
    rw [failIf_eq_ok, not_not] at hsame
    exact ⟨by rw [← hsame], fun _ => rfl⟩
  · rename_i hbeside
    cases h
    exact ⟨rfl, fun htouches => absurd (decide_eq_true htouches) hbeside⟩

/-- What a forward patch becomes. -/
theorem forward_refreshed (hdata : currentForwardData currentOutput patch = .ok data)
    (h : refreshedForward unwind patch data = .ok after) :
    storedOutputPatchMatches currentOutput after = true ∧
      after.outputOffset = patch.outputOffset ∧ after.data.length = patch.data.length ∧
      (Touches patch unwind → after = patch) := by
  obtain ⟨hbound, rfl, htouches⟩ := refreshedForward_eq_ok h
  obtain ⟨range, hrange, hdata⟩ := bind_eq_ok.mp hdata
  obtain ⟨-, rfl⟩ := patchRange_eq_ok.mp hrange
  rw [context_eq_ok] at hdata
  refine ⟨storedOutputPatchMatches_of_bytes hbound hdata, rfl, ?_, htouches⟩
  exact (length_slice hdata).trans (Nat.add_sub_cancel_left _ _)

theorem forwards_refreshed {patches : List StoredOutputPatch} {refreshed : List Bytes}
    (hdata : Forall₂ (fun patch data => currentForwardData currentOutput patch = .ok data)
      patches refreshed) : ∀ {forwards : List StoredOutputPatch},
      Forall₂ (fun (pair : StoredOutputPatch × Bytes) after =>
        refreshedForward unwind pair.1 pair.2 = .ok after) (patches.zip refreshed) forwards →
      Forall₂ (fun patch after => storedOutputPatchMatches currentOutput after = true ∧
        after.outputOffset = patch.outputOffset ∧ after.data.length = patch.data.length ∧
        (Touches patch unwind → after = patch)) patches forwards := by
  induction hdata with
  | nil =>
    intro forwards h
    cases h
    exact .nil
  | cons hpatch _ ih =>
    intro forwards h
    rw [zip_cons_cons] at h
    cases h with
    | cons hforward hrest => exact .cons (forward_refreshed hpatch hforward) (ih hrest)

section

variable {readSections : Bytes → Option (List OutputSection)}
  {scratchApply : Bytes → List StoredOutputPatch → MachOArchiveUnwindVersionState →
    MachOArchiveUnwindVersionState → Result Bytes}

theorem refreshedActive_eq_ok {state updated : MachOArchiveActivationState} {currentOutput : Bytes}
    (h : refreshedActive readSections scratchApply state currentOutput = .ok updated) :
    ∃ unwind, unwindRanges readSections state currentOutput = .ok unwind ∧
      updated = { state with forwardPatches := updated.forwardPatches } ∧
      Forall₂ (fun patch after => storedOutputPatchMatches currentOutput after = true ∧
        after.outputOffset = patch.outputOffset ∧ after.data.length = patch.data.length ∧
        (Touches patch unwind → after = patch)) state.forwardPatches updated.forwardPatches := by
  obtain ⟨_, -, h⟩ := bind_eq_ok.mp h
  obtain ⟨_, -, h⟩ := bind_eq_ok.mp h
  obtain ⟨refreshed, hrefreshed, h⟩ := bind_eq_ok.mp h
  obtain ⟨unwind, hunwind, h⟩ := bind_eq_ok.mp h
  obtain ⟨forwards, hforwards, h⟩ := bind_eq_ok.mp h
  obtain ⟨_, -, h⟩ := bind_eq_ok.mp h
  cases h
  refine ⟨unwind, hunwind, rfl, ?_⟩
  have hdata := forall₂_of_mapM_ok hrefreshed
  have hafter := forall₂_of_mapM_ok hforwards
  exact forwards_refreshed hdata hafter

/-- **An active state is refreshed.**  If that fails it does not change.  Otherwise its forward
patches are in the output, and those that touch the unwind ranges are what they were. -/
theorem refreshActive_correct {state state' : MachOArchiveActivationState} {currentOutput : Bytes}
    {result : Result Unit}
    (h : refreshActiveMachoArchiveForwardPatches readSections scratchApply state currentOutput
      = (result, state')) :
    (∀ message, result = .error message → state' = state) ∧
    (result = .ok () →
      storedOutputPatchesMatch state'.forwardPatches currentOutput = true ∧
      state' = { state with forwardPatches := state'.forwardPatches } ∧
      ∃ unwind, unwindRanges readSections state currentOutput = .ok unwind ∧
        Forall₂ (fun patch after => after.outputOffset = patch.outputOffset ∧
          after.data.length = patch.data.length ∧ (Touches patch unwind → after = patch))
          state.forwardPatches state'.forwardPatches) := by
  rw [refreshActiveMachoArchiveForwardPatches] at h
  split at h
  · cases h
    exact ⟨fun _ _ => rfl, fun hok => by cases hok⟩
  · rename_i updated hupdated
    cases h
    obtain ⟨unwind, hunwind, hframe, hforwards⟩ := refreshedActive_eq_ok hupdated
    refine ⟨fun message hmessage => (by cases hmessage), fun _ => ⟨?_, hframe, unwind, hunwind,
      hforwards.imp fun _ _ hpatch => hpatch.2⟩⟩
    refine all_eq_true.mpr fun after hafter => ?_
    obtain ⟨patch, -, hmatches, -⟩ := exists_of_forall₂_right hforwards hafter
    exact hmatches

end

/-! ## 6. Exchanges of members -/

/-- **Transactions undo to the right bytes.**  The three results for all outputs, states and input
files. -/
theorem archive_transactions_undo (readSections : Bytes → Option (List OutputSection))
    (scratchApply : Bytes → List StoredOutputPatch → MachOArchiveUnwindVersionState →
      MachOArchiveUnwindVersionState → Result Bytes) :
    (∀ (forward rollback : StoredOutputPatch) (previousOutput : Bytes)
      (retired : List MachOArchiveActivationState) (written : List StoredOutputPatch),
      written.Perm (retired.flatMap (·.rollbackPatches)) →
      (∀ state ∈ retired, ∀ patch ∈ state.rollbackPatches, patch.Fits previousOutput) →
      storedMachoArchiveRollbackPatch forward previousOutput retired = .ok rollback →
        rollback.outputOffset = forward.outputOffset ∧
        bytesUnder (applyStoredPatches previousOutput written) forward = some rollback.data) ∧
    (∀ (inputFiles inputFiles' : List FileState) (refs : List RetiredMachOArchiveStateRef)
      (currentOutput : Bytes) (result : Result Nat),
      refreshDormantMachoArchiveRollbackPatches readSections inputFiles refs currentOutput
        = (result, inputFiles') →
      (∀ message, result = .error message → inputFiles' = inputFiles) ∧
      (∀ count, result = .ok count →
        (∀ stateRef ∈ refs, ∃ state, stateAt inputFiles' stateRef = some state ∧
          storedOutputPatchesMatch state.rollbackPatches currentOutput = true) ∧
        inputFiles'.map forgetRollbackData = inputFiles.map forgetRollbackData ∧
        ∀ stateRef k after, rollbackAt inputFiles' stateRef k = some after →
          ∃ before, rollbackAt inputFiles stateRef k = some before ∧ (after = before ∨
            (stateRef ∈ refs ∧
              ReplacedBy (membersAt inputFiles stateRef.inputIndex) before after)))) ∧
    ∀ (state state' : MachOArchiveActivationState) (currentOutput : Bytes) (result : Result Unit),
      refreshActiveMachoArchiveForwardPatches readSections scratchApply state currentOutput
        = (result, state') →
      (∀ message, result = .error message → state' = state) ∧
      (result = .ok () →
        storedOutputPatchesMatch state'.forwardPatches currentOutput = true ∧
        state' = { state with forwardPatches := state'.forwardPatches } ∧
        ∃ unwind, unwindRanges readSections state currentOutput = .ok unwind ∧
          Forall₂ (fun patch after => after.outputOffset = patch.outputOffset ∧
            after.data.length = patch.data.length ∧ (Touches patch unwind → after = patch))
            state.forwardPatches state'.forwardPatches) :=
  ⟨fun _ _ _ _ _ hwritten hfits h => storedMachoArchiveRollbackPatch_correct hwritten hfits h,
    fun _ _ _ _ _ h => refreshDormant_correct h, fun _ _ _ _ h => refreshActive_correct h⟩

/-- A state that owns two bytes at offset 1. -/
def twoByteState (active : Bool) (forward rollback : Bytes) : MachOArchiveActivationState where
  kind := .addedMembers
  members := []
  active := active
  sections := []
  relocations := []
  symbolResolutions := []
  indirectDependencies := []
  rollbackSymbolResolutions := []
  forwardPatches := [⟨1, forward⟩]
  rollbackPatches := [⟨1, rollback⟩]
  unwindTransaction := none

/-- An archive with a dormant cohort and an active one that owns the same bytes. -/
def exchangedArchive : FileState where
  path := []
  content := ⟨0, [], none⟩
  snapshotIdentity := none
  rustcLinkContentDigest := none
  rustcRawObjectManifest := none
  patch := some {
    fingerprint := []
    archiveMemberSetProof := none
    archiveMemberPatchFingerprints := none
    machoArchiveMembers := [twoByteState false [5, 5] [0, 0], twoByteState true [7, 7] [3, 3]]
    sections := []
    rawSections := none }

/-- A new cohort takes the two bytes over, both rollbacks are refreshed, and so is its forward
patch. -/
theorem archive_transactions_undo_twoBytes :
    bytesUnder (applyStoredPatches [1, 2, 3, 4] [⟨1, [9, 9]⟩]) ⟨1, [7, 7]⟩ = some [9, 9] ∧
    (∃ state, stateAt (refreshDormantMachoArchiveRollbackPatches (fun _ => none) [exchangedArchive]
        [⟨0, 0⟩] [1, 7, 7, 4]).2 ⟨0, 0⟩ = some state ∧
      storedOutputPatchesMatch state.rollbackPatches [1, 7, 7, 4] = true) ∧
    storedOutputPatchesMatch (refreshActiveMachoArchiveForwardPatches (fun _ => none)
      (fun _ _ _ _ => .error "failed to parse source Mach-O unwind transaction output")
      (twoByteState true [7, 7] [3, 3]) [1, 6, 6, 4]).2.forwardPatches [1, 6, 6, 4] = true := by
  obtain ⟨hrollback, hdormant, hactive⟩ := archive_transactions_undo (fun _ => none)
    (fun _ _ _ _ => .error "failed to parse source Mach-O unwind transaction output")
  refine ⟨?_, ?_, ?_⟩
  · exact (hrollback ⟨1, [7, 7]⟩ ⟨1, [9, 9]⟩ [1, 2, 3, 4] [twoByteState false [5, 5] [9, 9]]
      [⟨1, [9, 9]⟩] (.refl _) (by decide) rfl).2
  · exact ((hdormant [exchangedArchive] _ [⟨0, 0⟩] [1, 7, 7, 4] (.ok 1) rfl).2 1 rfl).1 ⟨0, 0⟩
      (mem_singleton_self _)
  · exact ((hactive (twoByteState true [7, 7] [3, 3]) _ [1, 6, 6, 4] (.ok ()) rfl).2 rfl).1

end Srs.Incremental
