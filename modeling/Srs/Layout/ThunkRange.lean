/-
# Thunk blocks in branch range

A block is to be within branch range of every object that uses it.  The pass keeps to this for
the previous block.  For the next block it waits until an object has gone as far as the range
from the start of the first object that uses the block, and then places the block behind that
object: too late for the first one (`not_inRange_of_far`).  Hence a choice of blocks is in range
exactly when no object is that far from the start of the second block (`inRange_iff_reaches`).
-/
import Mathlib.Data.List.TakeWhile
import Srs.Layout.ThunkBlocks

namespace Srs.Thunks

open List Option ThunkBlockId UInt64 Pass

/-! ## 1. Definitions -/

/-- Objects without gaps between them, each smaller than the range. -/
structure Contiguous (maxBranchRange : UInt64) (objects : List Object) : Prop where
  adjacent : objects.IsChain fun a b => b.start = a.stop
  positive : ∀ object ∈ objects, object.start < object.stop
  small : ∀ object ∈ objects, object.stop - object.start < maxBranchRange

def distance (a b : UInt64) : Nat := (a.toNat - b.toNat) + (b.toNat - a.toNat)

/-- **Every byte of an object is in range of the block it uses**, which is at the end of the
block's owner. -/
def InRange (maxBranchRange : UInt64) (objects : List Object) (calls : List Assignment) : Prop :=
  ∀ object ∈ objects, ∀ owner ∈ objects, ∀ blockId isOwner,
    lastCall object.fileId calls = some (blockId, isOwner) →
    lastCall owner.fileId calls = some (blockId, true) →
    ∀ byte, object.start ≤ byte → byte < object.stop →
      distance byte owner.stop < maxBranchRange.toNat

/-- The objects from the first on that is out of range of the first block. -/
def beyondFirst (maxBranchRange : UInt64) : List Object → List Object
  | [] => []
  | first :: objects =>
    objects.dropWhile fun object => object.stop - first.stop < maxBranchRange

/-- No object ends as far as the range from the start of the first one out of range. -/
def Reaches (maxBranchRange : UInt64) (objects : List Object) : Prop :=
  match beyondFirst maxBranchRange objects with
  | [] => True
  | start :: later => ∀ object ∈ later, object.stop - start.start < maxBranchRange

instance (maxBranchRange : UInt64) (objects : List Object) :
    Decidable (Reaches maxBranchRange objects) := by
  unfold Reaches
  split <;> infer_instance

/-! ## 2. Positions -/

theorem Contiguous.tail {maxBranchRange : UInt64} {object : Object} {objects : List Object}
    (h : Contiguous maxBranchRange (object :: objects)) : Contiguous maxBranchRange objects where
  adjacent := h.adjacent.tail
  positive := fun other hother => h.positive other (mem_cons_of_mem object hother)
  small := fun other hother => h.small other (mem_cons_of_mem object hother)

variable {objects : List Object} {object : Object} {byte : UInt64} {first : Object}
  {near : List Object}

theorem Contiguous.append_right {maxBranchRange : UInt64} {front : List Object}
    (h : Contiguous maxBranchRange (front ++ objects)) : Contiguous maxBranchRange objects := by
  induction front with
  | nil => exact h
  | cons object front ih => exact ih h.tail

/-- What comes later starts at the end or behind it. -/
theorem Contiguous.stop_le_start {maxBranchRange : UInt64} :
    ∀ {object : Object}, Contiguous maxBranchRange (object :: objects) →
      ∀ other ∈ objects, object.stop ≤ other.start := by
  induction objects with
  | nil => exact fun _ => forall_mem_nil _
  | cons next objects ih =>
    intro object h
    have hnext : next.start = object.stop := (isChain_cons_cons.mp h.adjacent).1
    refine List.forall_mem_cons.mpr ⟨UInt64.le_of_eq hnext.symm, ?_⟩
    intro other hother
    have hlt := h.tail.positive next mem_cons_self
    rw [hnext] at hlt
    exact UInt64.le_trans (UInt64.le_of_lt hlt) (ih h.tail other hother)

theorem toNat_sub_lt {a b range : UInt64} (hle : b ≤ a) :
    a - b < range ↔ a.toNat - b.toNat < range.toNat := by
  rw [UInt64.lt_iff_toNat_lt, UInt64.toNat_sub_of_le _ _ hle]

/-- A byte of an object is less than the range from the object's end. -/
theorem distance_own_end {maxBranchRange : UInt64}
    (hlt : object.start < object.stop) (hsmall : object.stop - object.start < maxBranchRange)
    (hlo : object.start ≤ byte) (hhi : byte < object.stop) :
    distance byte object.stop < maxBranchRange.toNat := by
  have hsize := (toNat_sub_lt (UInt64.le_of_lt hlt)).mp hsmall
  have hlo' := le_iff_toNat_le.mp hlo
  have hhi' := lt_iff_toNat_lt.mp hhi
  unfold distance
  omega

/-- A byte of a later object is less than the range from a place in front of the object, when the
object's end is. -/
theorem distance_behind {maxBranchRange place : UInt64}
    (hle : place ≤ object.start) (hin : object.stop - place < maxBranchRange)
    (hlo : object.start ≤ byte) (hhi : byte < object.stop) :
    distance byte place < maxBranchRange.toNat := by
  have hplace := le_iff_toNat_le.mp hle
  have hlo' := le_iff_toNat_le.mp hlo
  have hhi' := lt_iff_toNat_lt.mp hhi
  have hend : place ≤ object.stop := le_iff_toNat_le.mpr (by omega)
  have hin' := (toNat_sub_lt hend).mp hin
  unfold distance
  omega

/-! ## 3. Runs of steps that stay in range -/

section Runs

variable {maxBranchRange : UInt64} {pass : Pass}

theorem Pass.run_uses_previous (hpending : pass.pendingNext = none) (later : List Object) :
    ∀ near : List Object,
      (∀ object ∈ near, object.stop - pass.prevBlockPos < maxBranchRange) →
      pass.run maxBranchRange (near ++ later)
        = ((pass.run maxBranchRange later).1,
          near.map (fun object => ⟨object.fileId, pass.prevBlockId, false⟩)
            ++ (pass.run maxBranchRange later).2) := by
  intro near
  induction near with
  | nil => exact fun _ => rfl
  | cons object near ih =>
    intro hnear
    obtain ⟨hobject, hnear⟩ := List.forall_mem_cons.mp hnear
    rw [cons_append, run,
      step_uses_previous hpending (UInt64.not_le.mpr hobject)]
    simp only [ih hnear]
    rfl

theorem Pass.run_uses_next {pending : PendingBlock} (hpending : pass.pendingNext = some pending)
    (later : List Object) : ∀ near : List Object,
      (∀ object ∈ near, object.stop - pending.firstObjectStart < maxBranchRange) →
      pass.run maxBranchRange (near ++ later)
        = ((pass.run maxBranchRange later).1,
          near.map (fun object => ⟨object.fileId, pending.nextId, false⟩)
            ++ (pass.run maxBranchRange later).2) := by
  intro near
  induction near with
  | nil => exact fun _ => rfl
  | cons object near ih =>
    intro hnear
    obtain ⟨hobject, hnear⟩ := List.forall_mem_cons.mp hnear
    rw [cons_append, run,
      step_uses_next hpending (UInt64.not_le.mpr hobject)]
    simp only [ih hnear]
    rfl

end Runs

/-- The first call, and those of the objects in range of the first block. -/
def firstCalls (first : Object) (near : List Object) : List Assignment :=
  ⟨first.fileId, ThunkBlockId.first, true⟩
    :: near.map fun object => ⟨object.fileId, ThunkBlockId.first, false⟩

/-- The state after the object that opens the second block. -/
def secondPass (first start : Object) : Pass :=
  ⟨2, ThunkBlockId.first, first.stop, some ⟨ThunkBlockId.fromUsize 1, start.fileId, start.start⟩⟩

theorem assignThunkBlocks_near {maxBranchRange : UInt64}
    (hnear : ∀ object ∈ near, object.stop - first.stop < maxBranchRange) :
    assignThunkBlocks maxBranchRange (first :: near) = (1, firstCalls first near) := by
  have hrun := @Pass.run_uses_previous maxBranchRange (initial first) rfl [] near hnear
  rw [append_nil] at hrun
  rw [assignThunkBlocks, hrun]
  simp [run, finish, initial, firstCalls]

theorem assignThunkBlocks_far {maxBranchRange : UInt64} {first start : Object}
    {near later : List Object} (hnear : ∀ object ∈ near, object.stop - first.stop < maxBranchRange)
    (hfar : maxBranchRange ≤ start.stop - first.stop) :
    (assignThunkBlocks maxBranchRange (first :: (near ++ start :: later))).2
      = firstCalls first near ++ ((secondPass first start).run maxBranchRange later).2 := by
  rw [assignThunkBlocks,
    @Pass.run_uses_previous maxBranchRange (initial first) rfl (start :: later) near hnear,
    run, @Pass.step_opens_next maxBranchRange (initial first) start rfl hfar]
  rfl

/-! ## 4. When the blocks are in range -/

theorem mem_of_lastCall {fileId : FileId} {calls : List Assignment} {blockId : ThunkBlockId}
    {isOwner : Bool} (h : lastCall fileId calls = some (blockId, isOwner)) :
    ⟨fileId, blockId, isOwner⟩ ∈ calls := by
  obtain ⟨call, hfind, heq⟩ := map_eq_some_iff.mp h
  have hmem := mem_reverse.mp (mem_of_find?_eq_some hfind)
  have hfile : call.fileId = fileId := by simpa using find?_some hfind
  obtain ⟨hblock, howner⟩ := Prod.mk.inj heq
  rw [← hfile, ← hblock, ← howner]
  exact hmem

theorem eq_of_fileId (hids : (objects.map (·.fileId)).Nodup)
    {a b : Object} (ha : a ∈ objects) (hb : b ∈ objects) (h : a.fileId = b.fileId) : a = b :=
  inj_on_of_nodup_map hids ha hb h

/-- An object is in range of the first one's end. -/
theorem Contiguous.inRange_first {maxBranchRange : UInt64}
    (h : Contiguous maxBranchRange (first :: objects))
    (hobject : object = first ∨ object ∈ objects ∧ object.stop - first.stop < maxBranchRange)
    (hlo : object.start ≤ byte) (hhi : byte < object.stop) :
    distance byte first.stop < maxBranchRange.toNat := by
  rcases hobject with rfl | ⟨hmem, hin⟩
  · exact distance_own_end (h.positive object mem_cons_self)
      (h.small object mem_cons_self) hlo hhi
  · exact distance_behind (h.stop_le_start object hmem) hin hlo hhi

/-- An object is nearer to the first one's end than to its start. -/
theorem Contiguous.sub_stop_lt {maxBranchRange : UInt64}
    (h : Contiguous maxBranchRange (first :: objects)) (hobject : object ∈ objects)
    (hlt : object.stop - first.start < maxBranchRange) :
    object.stop - first.stop < maxBranchRange := by
  have hfirst := lt_iff_toNat_lt.mp (h.positive first mem_cons_self)
  have hbehind := le_iff_toNat_le.mp (h.stop_le_start object hobject)
  have hpositive := lt_iff_toNat_lt.mp
    (h.positive object (mem_cons_of_mem first hobject))
  rw [toNat_sub_lt (le_iff_toNat_le.mpr (by omega))] at hlt ⊢
  omega

/-- The calls made for the objects in range of the first block. -/
theorem mem_firstCalls {call : Assignment}
    (h : call ∈ firstCalls first near) : call.blockId = ThunkBlockId.first ∧
      ((call.fileId = first.fileId) ∨
        call.isOwner = false ∧ ∃ object ∈ near, call.fileId = object.fileId) := by
  rcases mem_cons.mp h with rfl | h
  · exact ⟨rfl, .inl rfl⟩
  · obtain ⟨object, hobject, rfl⟩ := mem_map.mp h
    exact ⟨rfl, .inr ⟨rfl, object, hobject, rfl⟩⟩

/-- The calls made for the objects of a second block without a place: the first one owns it. -/
theorem run_secondPass {maxBranchRange : UInt64} {start : Object} {later : List Object}
    (hlater : ∀ object ∈ later, object.stop - start.start < maxBranchRange) :
    ((secondPass first start).run maxBranchRange later).2
      = later.map (fun object => ⟨object.fileId, fromUsize 1, false⟩)
        ++ [⟨start.fileId, fromUsize 1, true⟩] := by
  have hrun := @Pass.run_uses_next maxBranchRange (secondPass first start) _ rfl [] later hlater
  rw [append_nil] at hrun
  rw [hrun]
  rfl

/-- The objects in front of the first one out of range are in range of the first block. -/
theorem beyondFirst_spec {maxBranchRange : UInt64} (first : Object) (rest : List Object) :
    ∃ near, rest = near ++ beyondFirst maxBranchRange (first :: rest) ∧
      (∀ object ∈ near, object.stop - first.stop < maxBranchRange) ∧
      ∀ start ∈ (beyondFirst maxBranchRange (first :: rest)).head?,
        maxBranchRange ≤ start.stop - first.stop := by
  refine ⟨rest.takeWhile fun object => object.stop - first.stop < maxBranchRange,
    (takeWhile_append_dropWhile ..).symm, ?_, ?_⟩
  · intro object hobject
    simpa using mem_takeWhile_imp hobject
  · intro start hstart
    have hnot := head?_dropWhile_not
      (fun object : Object => decide (object.stop - first.stop < maxBranchRange)) rest
    rw [beyondFirst] at hstart
    rw [mem_def.mp hstart] at hnot
    simpa using hnot

/-- **All in range**: when no object ends as far as the range from the second block's start, there
are two blocks at most, and each is owned by the first object that uses it. -/
theorem inRange_of_reaches {maxBranchRange : UInt64}
    (h : Contiguous maxBranchRange objects) (hids : (objects.map (·.fileId)).Nodup)
    (hreaches : Reaches maxBranchRange objects) :
    InRange maxBranchRange objects (assignThunkBlocks maxBranchRange objects).2 := by
  intro object hobject owner howner blockId isOwner hlast hown byte hlo hhi
  cases objects with
  | nil => exact absurd hobject not_mem_nil
  | cons first rest =>
    obtain ⟨near, hrest, hnear, hfar⟩ := @beyondFirst_spec maxBranchRange first rest
    have hsame : ∀ {a b : Object}, a ∈ first :: rest → b ∈ first :: rest →
        a.fileId = b.fileId → a = b := eq_of_fileId hids
    -- an object with a call for the first block
    have hblock : ∀ {other : Object} {isOwner : Bool}, other ∈ first :: rest →
        ⟨other.fileId, blockId, isOwner⟩ ∈ firstCalls first near →
        blockId = ThunkBlockId.first ∧ (other = first ∨ isOwner = false ∧
          other ∈ rest ∧ other.stop - first.stop < maxBranchRange) := by
      intro other isOwner hother hcall
      obtain ⟨hid, hfile⟩ := mem_firstCalls hcall
      refine ⟨hid, hfile.imp (hsame hother mem_cons_self) ?_⟩
      rintro ⟨hfalse, o, ho, heq⟩
      have ho' : o ∈ rest := by
        rw [hrest]
        exact mem_append_left _ ho
      obtain rfl := hsame hother (mem_cons_of_mem first ho') heq
      exact ⟨hfalse, ho', hnear other ho⟩
    replace hlast := mem_of_lastCall hlast
    replace hown := mem_of_lastCall hown
    unfold Reaches at hreaches
    cases hbeyond : beyondFirst maxBranchRange (first :: rest) with
    | nil =>
      rw [hbeyond, append_nil] at hrest
      rw [hrest, assignThunkBlocks_near hnear] at hlast hown
      obtain ⟨-, howner'⟩ := hblock howner hown
      obtain rfl : owner = first := howner'.resolve_right fun hfalse => by simp at hfalse
      exact h.inRange_first ((hblock hobject hlast).2.imp_right And.right) hlo hhi
    | cons start later =>
      rw [hbeyond] at hrest hreaches hfar
      have hcalls := @assignThunkBlocks_far _ _ _ _ later hnear (hfar start rfl)
      rw [← hrest, run_secondPass hreaches] at hcalls
      rw [hcalls] at hlast hown
      have hsecond : Contiguous maxBranchRange (start :: later) := by
        rw [hrest, ← cons_append] at h
        exact h.append_right
      have hstart : start ∈ first :: rest := by
        rw [hrest]
        simp
      have hlater : ∀ other ∈ later, other ∈ first :: rest := by
        intro other hother
        rw [hrest]
        simp [hother]
      rcases mem_append.mp hown with hown | hown
      · obtain ⟨rfl, howner'⟩ := hblock howner hown
        obtain rfl : owner = first := howner'.resolve_right fun hfalse => by simp at hfalse
        rcases mem_append.mp hlast with hlast | hlast
        · exact h.inRange_first ((hblock hobject hlast).2.imp_right And.right) hlo hhi
        · -- no object has a call for the first block behind this
          simp [first, fromUsize] at hlast
      · obtain ⟨rfl, rfl⟩ : blockId = fromUsize 1 ∧ owner = start := by
          simp only [mem_append, List.mem_map, mem_singleton, Assignment.mk.injEq] at hown
          rcases hown with ⟨o, -, -, -, hfalse⟩ | ⟨hfile, hid, -⟩
          · exact absurd hfalse (by decide)
          · exact ⟨hid, hsame howner hstart hfile⟩
        rcases mem_append.mp hlast with hlast | hlast
        · exact absurd (hblock hobject hlast).1 (by decide)
        · refine hsecond.inRange_first ?_ hlo hhi
          simp only [mem_append, List.mem_map, mem_singleton,
            Assignment.mk.injEq] at hlast
          rcases hlast with ⟨o, ho, hfile, -⟩ | ⟨hfile, -⟩
          · obtain rfl := hsame (hlater o ho) hobject hfile
            exact .inr ⟨ho, hsecond.sub_stop_lt ho (hreaches o ho)⟩
          · exact .inl (hsame hobject hstart hfile)

/-- The state after the object that places the second block. -/
def thirdPass (far : Object) : Pass := ⟨2, fromUsize 1, far.stop, none⟩

/-- The last calls when an object ends too far from the second block's start: it owns the block,
and the object at the start uses it. -/
theorem lastCall_of_far {maxBranchRange : UInt64} {start far : Object} {group later : List Object}
    (hids : ((start :: (group ++ far :: later)).map (·.fileId)).Nodup)
    (hnear : ∀ object ∈ near, object.stop - first.stop < maxBranchRange)
    (hstart : maxBranchRange ≤ start.stop - first.stop)
    (hgroup : ∀ object ∈ group, object.stop - start.start < maxBranchRange)
    (hfar : maxBranchRange ≤ far.stop - start.start) :
    let calls := (assignThunkBlocks maxBranchRange
      (first :: (near ++ start :: (group ++ far :: later)))).2
    lastCall start.fileId calls = some (fromUsize 1, false) ∧
      lastCall far.fileId calls = some (fromUsize 1, true) := by
  intro calls
  have hcalls : calls = firstCalls first near
      ++ (group.map (fun object => ⟨object.fileId, fromUsize 1, false⟩)
        ++ ([⟨start.fileId, fromUsize 1, false⟩,
          ⟨far.fileId, fromUsize 1, true⟩]
        ++ ((thirdPass far).run maxBranchRange later).2)) := by
    refine (assignThunkBlocks_far hnear hstart).trans ?_
    rw [@Pass.run_uses_next _ (secondPass first start) _ rfl (far :: later) group hgroup, run,
      @Pass.step_places_next _ (secondPass first start) _ _ rfl hfar]
    rfl
  rw [map_cons, map_append, map_cons, nodup_cons, nodup_append'] at hids
  obtain ⟨hstartFresh, -, hfarFresh, -⟩ := hids
  obtain ⟨-, hne, hstartLater⟩ : start.fileId ∉ group.map (·.fileId) ∧
      start.fileId ≠ far.fileId ∧ start.fileId ∉ later.map (·.fileId) := by
    simpa only [mem_append, mem_cons, not_or] using hstartFresh
  have hwaiting : (thirdPass far).waiting = [] := rfl
  have hlater : ∀ {fileId : FileId}, fileId ∉ later.map (·.fileId) →
      lastCall fileId ((thirdPass far).run maxBranchRange later).2 = none := fun hfresh =>
    lastCall_run_eq_none hfresh (by rw [hwaiting]; exact not_mem_nil)
  rw [hcalls]
  constructor
  · simp [lastCall_append, lastCall_cons, hlater hstartLater, hne.symm]
  · simp [lastCall_append, lastCall_cons, hlater (nodup_cons.mp hfarFresh).1]

/-- **Out of range**: an object that ends as far as the range from the second block's start owns
the block, and the byte at the start is that far from it. -/
theorem not_inRange_of_far {maxBranchRange : UInt64}
    (h : Contiguous maxBranchRange objects) (hids : (objects.map (·.fileId)).Nodup)
    (hreaches : ¬ Reaches maxBranchRange objects) :
    ¬ InRange maxBranchRange objects (assignThunkBlocks maxBranchRange objects).2 := by
  intro hrange
  cases objects with
  | nil => exact hreaches trivial
  | cons first rest =>
    obtain ⟨near, hrest, hnear, hstart⟩ := @beyondFirst_spec maxBranchRange first rest
    unfold Reaches at hreaches
    cases hbeyond : beyondFirst maxBranchRange (first :: rest) with
    | nil => exact hreaches (by rw [hbeyond]; trivial)
    | cons start later =>
      rw [hbeyond] at hreaches hrest hstart
      -- the first object that is too far
      obtain ⟨far, hfind⟩ : ∃ far, later.find? (fun object =>
          maxBranchRange ≤ object.stop - start.start) = some far := by
        refine isSome_iff_exists.mp (find?_isSome.mpr ?_)
        by_contra hnone
        refine hreaches ?_
        intro object hobject
        refine UInt64.not_le.mp fun hle => hnone ⟨object, hobject, decide_eq_true hle⟩
      obtain ⟨hfar, group, behind, hlater, hgroup⟩ := find?_eq_some_iff_append.mp hfind
      have hfar' : maxBranchRange ≤ far.stop - start.start := of_decide_eq_true hfar
      subst hlater
      have hsecond : Contiguous maxBranchRange (start :: (group ++ far :: behind)) := by
        rw [hrest, ← cons_append] at h
        exact h.append_right
      have hidsSecond : ((start :: (group ++ far :: behind)).map (·.fileId)).Nodup := by
        rw [hrest, ← cons_append, map_append] at hids
        exact (nodup_append'.mp hids).2.1
      have hcalls := lastCall_of_far hidsSecond hnear (hstart start rfl)
        (fun object hobject => UInt64.not_le.mp (by simpa using hgroup object hobject)) hfar'
      have hmem : ∀ object ∈ start :: (group ++ far :: behind), object ∈ first :: rest := by
        intro object hobject
        rw [hrest]
        exact mem_cons_of_mem first (mem_append_right near hobject)
      have hdist := hrange start (hmem start mem_cons_self) far (hmem far (by simp)) _ _
        (by rw [hrest]; exact hcalls.1) (by rw [hrest]; exact hcalls.2) start.start
        (UInt64.le_refl _) (hsecond.positive start mem_cons_self)
      have hle : start.start ≤ far.stop := by
        have hlt := hsecond.positive start mem_cons_self
        have hbehind := hsecond.stop_le_start far (by simp)
        have hpositive := hsecond.positive far (by simp)
        exact UInt64.le_of_lt (UInt64.lt_of_lt_of_le hlt
          (UInt64.le_trans hbehind (UInt64.le_of_lt hpositive)))
      have hfarNat : ¬ far.stop.toNat - start.start.toNat < maxBranchRange.toNat := by
        rw [← toNat_sub_lt hle]
        exact UInt64.not_lt.mpr hfar'
      unfold distance at hdist
      omega

/-- **The blocks are in range exactly when** no object ends as far as the range from the start of
the first object that is out of range of the first block. -/
theorem inRange_iff_reaches {maxBranchRange : UInt64} {objects : List Object}
    (h : Contiguous maxBranchRange objects) (hids : (objects.map (·.fileId)).Nodup) :
    InRange maxBranchRange objects (assignThunkBlocks maxBranchRange objects).2
      ↔ Reaches maxBranchRange objects := by
  refine ⟨fun hrange => ?_, inRange_of_reaches h hids⟩
  by_contra hreaches
  exact not_inRange_of_far h hids hreaches hrange

/-! ## 5. Four objects -/

/-- Four objects of the same size without gaps. -/
def fourObjects : List Object :=
  [⟨⟨0⟩, 0, 100⟩, ⟨⟨1⟩, 100, 200⟩, ⟨⟨2⟩, 200, 300⟩, ⟨⟨3⟩, 300, 400⟩]

theorem contiguous_fourObjects {maxBranchRange : UInt64} (h : 100 < maxBranchRange) :
    Contiguous maxBranchRange fourObjects where
  adjacent := by decide
  positive := by decide
  small := by
    intro object hobject
    have hsize : object.stop - object.start = 100 := by
      revert object
      decide
    rw [hsize]
    exact h

/-- With a range of two objects and a half, all is well. -/
theorem inRange_iff_reaches_fourObjects :
    InRange 250 fourObjects (assignThunkBlocks 250 fourObjects).2 ↔ Reaches 250 fourObjects :=
  inRange_iff_reaches (contiguous_fourObjects (by decide)) (by decide)

/-- With a range of one object and a half, the third object's block is placed behind the fourth,
at 400, out of range of the third's first byte at 200. -/
theorem not_inRange_fourObjects :
    Contiguous 150 fourObjects ∧ (fourObjects.map (·.fileId)).Nodup ∧
      ¬ InRange 150 fourObjects (assignThunkBlocks 150 fourObjects).2 := by
  refine ⟨contiguous_fourObjects (by decide), by decide, ?_⟩
  intro h
  have hdist := h ⟨⟨2⟩, 200, 300⟩ (by decide) ⟨⟨3⟩, 300, 400⟩ (by decide)
    (fromUsize 1) false (by decide) (by decide) 200 (by decide) (by decide)
  exact absurd hdist (by decide)

end Srs.Thunks
