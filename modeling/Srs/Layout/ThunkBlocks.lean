/-
# Thunk blocks: which object uses which

A branch that may not reach its target goes through a thunk, and the thunks of several objects
share a block that is placed behind one of them, its owner.  `thunks.rs` chooses the blocks in
one pass over the objects in the order of their addresses (`assign_thunk_blocks`): objects use
the previous block as long as they are in range of it.  The first one that is not opens the next
block, which is placed only when a later object has gone too far for the start of this one.

The pass reports its choice by calls of `assign`, more than one for some objects, and the last
call for an object counts.  Here the calls are the list that the pass returns.
-/
import Mathlib.Data.List.Range
import Mathlib.Data.UInt

namespace Srs.Thunks

open List

/-! ## 1. The pass -/

/-- A `FileId`. -/
structure FileId where
  raw : UInt32
  deriving DecidableEq

/-- A `ThunkBlockId`. -/
structure ThunkBlockId where
  raw : UInt32
  deriving DecidableEq

namespace ThunkBlockId

def first : ThunkBlockId := ⟨0⟩

/-- `ThunkBlockId(value as u32)` -/
def fromUsize (value : Nat) : ThunkBlockId := ⟨UInt32.ofNat value⟩

def asUsize (id : ThunkBlockId) : Nat := id.raw.toNat

end ThunkBlockId

/-- An object, and where it is in the primary part. -/
structure Object where
  fileId : FileId
  start : UInt64
  stop : UInt64
  deriving DecidableEq

/-- A call of `assign`. -/
structure Assignment where
  fileId : FileId
  blockId : ThunkBlockId
  isOwner : Bool
  deriving DecidableEq

/-- A next block that has no place yet. -/
structure PendingBlock where
  nextId : ThunkBlockId
  firstFileId : FileId
  firstObjectStart : UInt64

/-- What the pass carries from object to object. -/
structure Pass where
  numBlocks : Nat
  prevBlockId : ThunkBlockId
  prevBlockPos : UInt64
  pendingNext : Option PendingBlock

/-- The body of the loop, with the calls it makes. -/
def Pass.step (maxBranchRange : UInt64) (pass : Pass) (object : Object) :
    Pass × List Assignment :=
  match pass.pendingNext with
  | some pending =>
    if maxBranchRange ≤ object.stop - pending.firstObjectStart then
      -- the block is placed on this object, and is the previous one from here on
      ({ pass with
          prevBlockId := pending.nextId, prevBlockPos := object.stop, pendingNext := none },
        [⟨pending.firstFileId, pending.nextId, false⟩, ⟨object.fileId, pending.nextId, true⟩])
    else (pass, [⟨object.fileId, pending.nextId, false⟩])
  | none =>
    if maxBranchRange ≤ object.stop - pass.prevBlockPos then
      ({ pass with
          numBlocks := pass.numBlocks + 1,
          pendingNext :=
            some ⟨ThunkBlockId.fromUsize pass.numBlocks, object.fileId, object.start⟩ }, [])
    else (pass, [⟨object.fileId, pass.prevBlockId, false⟩])

/-- After the loop: a next block without a place belongs to the first object that uses it. -/
def Pass.finish (pass : Pass) : List Assignment :=
  match pass.pendingNext with
  | some pending => [⟨pending.firstFileId, pending.nextId, true⟩]
  | none => []

/-- The loop and what follows it: the number of blocks and the calls. -/
def Pass.run (maxBranchRange : UInt64) : Pass → List Object → Nat × List Assignment
  | pass, [] => (pass.numBlocks, pass.finish)
  | pass, object :: objects =>
    let (next, calls) := pass.step maxBranchRange object
    let (numBlocks, later) := next.run maxBranchRange objects
    (numBlocks, calls ++ later)

/-- The state after the first object, which owns the first block. -/
def Pass.initial (object : Object) : Pass := ⟨1, ThunkBlockId.first, object.stop, none⟩

/-- `assign_thunk_blocks` -/
def assignThunkBlocks (maxBranchRange : UInt64) : List Object → Nat × List Assignment
  | [] => (0, [])
  | object :: objects =>
    let (numBlocks, later) := (Pass.initial object).run maxBranchRange objects
    (numBlocks, ⟨object.fileId, ThunkBlockId.first, true⟩ :: later)

/-- The call that counts for a file: the last one. -/
def lastCall (fileId : FileId) (calls : List Assignment) : Option (ThunkBlockId × Bool) :=
  (calls.reverse.find? (·.fileId = fileId)).map fun call => (call.blockId, call.isOwner)

/-! ## 2. Calls -/

@[simp] theorem lastCall_nil (fileId : FileId) : lastCall fileId [] = none := rfl

theorem lastCall_append (fileId : FileId) (calls later : List Assignment) :
    lastCall fileId (calls ++ later) = (lastCall fileId later).or (lastCall fileId calls) := by
  simp only [lastCall, reverse_append, find?_append]
  cases later.reverse.find? (·.fileId = fileId) <;> rfl

theorem lastCall_cons (fileId : FileId) (call : Assignment) (later : List Assignment) :
    lastCall fileId (call :: later)
      = (lastCall fileId later).or
          (if call.fileId = fileId then some (call.blockId, call.isOwner) else none) := by
  rw [← singleton_append, lastCall_append]
  congr 1
  by_cases h : call.fileId = fileId <;> simp [lastCall, h]

variable {calls : List Assignment}

theorem lastCall_eq_none {fileId : FileId}
    (h : ∀ call ∈ calls, call.fileId ≠ fileId) : lastCall fileId calls = none := by
  rw [lastCall, Option.map_eq_none_iff, find?_eq_none]
  intro call hcall
  simpa using h call (mem_reverse.mp hcall)

/-- The file that waits for its first call. -/
def Pass.waiting (pass : Pass) : List FileId :=
  (pass.pendingNext.map (·.firstFileId)).toList

/-- The calls of a step are for its object and the file that waits. -/
theorem Pass.step_calls {maxBranchRange : UInt64} {pass : Pass} {object : Object} :
    (∀ call ∈ (pass.step maxBranchRange object).2,
        call.fileId = object.fileId ∨ call.fileId ∈ pass.waiting) ∧
      ∀ fileId ∈ (pass.step maxBranchRange object).1.waiting,
        fileId = object.fileId ∨ fileId ∈ pass.waiting := by
  unfold Pass.step Pass.waiting
  cases hpending : pass.pendingNext with
  | none =>
    dsimp only
    split <;> simp [hpending]
  | some pending =>
    dsimp only
    split <;> simp [hpending]

/-- The calls of a run are for its objects and the file that waits. -/
theorem Pass.run_calls {maxBranchRange : UInt64} : ∀ {objects : List Object} {pass : Pass},
    ∀ call ∈ (pass.run maxBranchRange objects).2,
      (∃ object ∈ objects, call.fileId = object.fileId) ∨ call.fileId ∈ pass.waiting := by
  intro objects
  induction objects with
  | nil =>
    intro pass call hcall
    cases hpending : pass.pendingNext with
    | none => simp [Pass.run, Pass.finish, hpending] at hcall
    | some pending =>
      simp only [Pass.run, Pass.finish, hpending, mem_singleton] at hcall
      exact .inr (by simp [Pass.waiting, hpending, hcall])
  | cons object objects ih =>
    intro pass call hcall
    obtain ⟨hcalls, hwaiting⟩ := @Pass.step_calls maxBranchRange pass object
    rcases mem_append.mp hcall with hcall | hcall
    · rcases hcalls call hcall with h | h
      · exact .inl ⟨object, mem_cons_self, h⟩
      · exact .inr h
    · rcases ih call hcall with ⟨other, hother, h⟩ | h
      · exact .inl ⟨other, mem_cons_of_mem object hother, h⟩
      · rcases hwaiting _ h with h | h
        · exact .inl ⟨object, mem_cons_self, h⟩
        · exact .inr h

/-- A run says nothing about a file that is not among its objects and does not wait. -/
theorem Pass.lastCall_run_eq_none {maxBranchRange : UInt64} {objects : List Object} {pass : Pass}
    {fileId : FileId} (hobjects : fileId ∉ objects.map (·.fileId))
    (hwaiting : fileId ∉ pass.waiting) :
    lastCall fileId (pass.run maxBranchRange objects).2 = none := by
  refine lastCall_eq_none ?_
  intro call hcall heq
  subst heq
  rcases Pass.run_calls call hcall with ⟨object, hobject, h⟩ | h
  · exact hobjects (mem_map.mpr ⟨object, hobject, h.symm⟩)
  · exact hwaiting h

/-! ## 3. The blocks of a run

What the last calls say of the objects of a run is a row for each of them: the block and whether
the object owns it. -/

/-- Rows that go on in block `k`, whose owner was before them or is still to come, and end with
the last of `count` blocks owned. -/
inductive Rows : Nat → Bool → List (Nat × Bool) → Nat → Prop
  | done {k} : Rows k true [] (k + 1)
  | user {k owned rows count} : Rows k owned rows count → Rows k owned ((k, false) :: rows) count
  | owner {k rows count} : Rows k true rows count → Rows k false ((k, true) :: rows) count
  | next {k rows count} : Rows (k + 1) false rows count → Rows k true rows count

/-- What the last calls say is `rows`. -/
def Says (calls : List Assignment) (objects : List Object) (rows : List (Nat × Bool)) : Prop :=
  objects.map (fun object => lastCall object.fileId calls)
    = rows.map fun row => some (ThunkBlockId.fromUsize row.1, row.2)

theorem Says.cons {calls : List Assignment} {object : Object} {objects : List Object}
    {k : Nat} {isOwner : Bool} {rows : List (Nat × Bool)}
    (hobject : lastCall object.fileId calls = some (ThunkBlockId.fromUsize k, isOwner))
    (hrest : Says calls objects rows) : Says calls (object :: objects) ((k, isOwner) :: rows) := by
  simp only [Says, map_cons, hobject]
  rw [hrest]

variable {rows : List (Nat × Bool)} {objects : List Object}

/-- Calls for other files, made before, change nothing. -/
theorem Says.before
    (h : Says calls objects rows) (earlier : List Assignment) :
    Says (earlier ++ calls) objects rows := by
  unfold Says at h ⊢
  rw [← h]
  refine map_congr_left ?_
  intro object hobject
  have hmem : lastCall object.fileId calls ∈ objects.map fun o => lastCall o.fileId calls :=
    mem_map_of_mem hobject
  rw [h, mem_map] at hmem
  obtain ⟨row, -, hrow⟩ := hmem
  rw [lastCall_append, ← hrow]
  rfl

variable {count : Nat} {k : Nat}

/-- One more user behind the first file of a block. -/
theorem Rows.insert_user {isOwner : Bool}
    (h : Rows k false ((k, isOwner) :: rows) count) :
    Rows k false ((k, isOwner) :: (k, false) :: rows) count := by
  cases h with
  | user h => exact .user (.user h)
  | owner h => exact .owner (.user h)

/-! The four things a step does. -/

section Steps

variable {maxBranchRange : UInt64} {pass : Pass} {object : Object}

theorem Pass.step_uses_previous (hpending : pass.pendingNext = none)
    (hin : ¬ maxBranchRange ≤ object.stop - pass.prevBlockPos) :
    pass.step maxBranchRange object = (pass, [⟨object.fileId, pass.prevBlockId, false⟩]) := by
  rw [Pass.step, hpending]
  exact if_neg hin

theorem Pass.step_opens_next (hpending : pass.pendingNext = none)
    (hout : maxBranchRange ≤ object.stop - pass.prevBlockPos) :
    pass.step maxBranchRange object
      = ({ pass with
          numBlocks := pass.numBlocks + 1,
          pendingNext :=
            some ⟨ThunkBlockId.fromUsize pass.numBlocks, object.fileId, object.start⟩ }, []) := by
  rw [Pass.step, hpending]
  exact if_pos hout

theorem Pass.step_uses_next {pending : PendingBlock} (hpending : pass.pendingNext = some pending)
    (hin : ¬ maxBranchRange ≤ object.stop - pending.firstObjectStart) :
    pass.step maxBranchRange object = (pass, [⟨object.fileId, pending.nextId, false⟩]) := by
  rw [Pass.step, hpending]
  exact if_neg hin

theorem Pass.step_places_next {pending : PendingBlock} (hpending : pass.pendingNext = some pending)
    (hout : maxBranchRange ≤ object.stop - pending.firstObjectStart) :
    pass.step maxBranchRange object
      = ({ pass with
          prevBlockId := pending.nextId, prevBlockPos := object.stop, pendingNext := none },
        [⟨pending.firstFileId, pending.nextId, false⟩, ⟨object.fileId, pending.nextId, true⟩]) := by
  rw [Pass.step, hpending]
  exact if_pos hout

end Steps

/-- **A run settles rows.**  In the induction over the objects, the pass is in the previous block
`k`, or in block `k` that has no place yet: then its first file still waits for its call, which
makes it the owner when no later object goes too far. -/
theorem Pass.run_rows {maxBranchRange : UInt64} : ∀ {objects : List Object} {pass : Pass} {k : Nat},
    pass.numBlocks = k + 1 → (pass.waiting ++ objects.map (·.fileId)).Nodup →
      (pass.pendingNext = none → pass.prevBlockId = ThunkBlockId.fromUsize k →
        ∃ rows, Rows k true rows (pass.run maxBranchRange objects).1 ∧
          Says (pass.run maxBranchRange objects).2 objects rows) ∧
      ∀ pending, pass.pendingNext = some pending → pending.nextId = ThunkBlockId.fromUsize k →
        ∃ isOwner rows, Rows k false ((k, isOwner) :: rows) (pass.run maxBranchRange objects).1 ∧
          lastCall pending.firstFileId (pass.run maxBranchRange objects).2
            = some (ThunkBlockId.fromUsize k, isOwner) ∧
          Says (pass.run maxBranchRange objects).2 objects rows := by
  intro objects
  induction objects with
  | nil =>
    intro pass k hnum hnodup
    refine ⟨fun _ _ => ⟨[], ?_, rfl⟩, ?_⟩
    · rw [Pass.run, hnum]
      exact .done
    · intro pending hpending hid
      refine ⟨true, [], ?_, ?_, rfl⟩
      · rw [Pass.run, hnum]
        exact .owner .done
      · simp [Pass.run, Pass.finish, hpending, lastCall_cons, hid]
  | cons object objects ih =>
    intro pass k hnum hnodup
    obtain ⟨-, hrest, hapart⟩ := nodup_append'.mp hnodup
    obtain ⟨hfresh, hobjects⟩ := nodup_cons.mp hrest
    refine ⟨?_, ?_⟩
    · intro hpending hprev
      have hwait : pass.waiting = [] := by simp [Pass.waiting, hpending]
      by_cases hout : maxBranchRange ≤ object.stop - pass.prevBlockPos
      · obtain ⟨-, hsome⟩ := @ih { pass with
          numBlocks := pass.numBlocks + 1,
          pendingNext := some ⟨ThunkBlockId.fromUsize pass.numBlocks, object.fileId, object.start⟩ }
          (k + 1) (by simp [hnum]) (by simpa [Pass.waiting] using hrest)
        obtain ⟨isOwner, rows, hrows, hfirst, hrelates⟩ := hsome _ rfl (by rw [hnum])
        rw [Pass.run, Pass.step_opens_next hpending hout]
        exact ⟨(k + 1, isOwner) :: rows, .next hrows, .cons hfirst hrelates⟩
      · obtain ⟨hnone, -⟩ := ih hnum (by simpa [hwait] using hobjects)
        obtain ⟨rows, hrows, hrelates⟩ := hnone hpending hprev
        rw [Pass.run, Pass.step_uses_previous hpending hout]
        refine ⟨(k, false) :: rows, .user hrows, .cons ?_ (hrelates.before _)⟩
        rw [lastCall_append, Pass.lastCall_run_eq_none hfresh (by simp [hwait])]
        simp [lastCall_cons, hprev]
    · intro pending hpending hid
      have hwait : pass.waiting = [pending.firstFileId] := by simp [Pass.waiting, hpending]
      have hfirst : pending.firstFileId ∉ (object :: objects).map (·.fileId) := by
        refine disjoint_left.mp hapart ?_
        rw [hwait]
        exact mem_singleton_self _
      obtain ⟨hne, hnotin⟩ : pending.firstFileId ≠ object.fileId ∧
          pending.firstFileId ∉ objects.map (·.fileId) := by
        simpa only [map_cons, mem_cons, not_or] using hfirst
      by_cases hout : maxBranchRange ≤ object.stop - pending.firstObjectStart
      · obtain ⟨hnone, -⟩ := @ih { pass with
          prevBlockId := pending.nextId, prevBlockPos := object.stop, pendingNext := none } k hnum
          (by simpa [Pass.waiting] using hobjects)
        obtain ⟨rows, hrows, hrelates⟩ := hnone rfl hid
        rw [Pass.run, Pass.step_places_next hpending hout]
        refine ⟨false, (k, true) :: rows, .user (.owner hrows), ?_, .cons ?_ (hrelates.before _)⟩
        · rw [lastCall_append, Pass.lastCall_run_eq_none hnotin (by simp [Pass.waiting])]
          simp [lastCall_cons, hne.symm, hid]
        · rw [lastCall_append, Pass.lastCall_run_eq_none hfresh (by simp [Pass.waiting])]
          simp [lastCall_cons, hid]
      · obtain ⟨-, hsome⟩ := ih hnum
          (by simpa only [hwait, singleton_append, nodup_cons] using ⟨hnotin, hobjects⟩)
        obtain ⟨isOwner, rows, hrows, hlast, hrelates⟩ := hsome pending hpending hid
        rw [Pass.run, Pass.step_uses_next hpending hout]
        refine ⟨isOwner, (k, false) :: rows, hrows.insert_user, ?_, .cons ?_ (hrelates.before _)⟩
        · rw [lastCall_append, hlast]
          rfl
        · rw [lastCall_append, Pass.lastCall_run_eq_none hfresh (by simpa [hwait] using hne.symm)]
          simp [lastCall_cons, hid]

/-! ## 4. What rows of this shape are -/

variable {owned : Bool}

theorem Rows.lt
    (h : Rows k owned rows count) : k < count := by
  induction h with
  | done => exact Nat.lt_succ_self _
  | user _ ih => exact ih
  | owner _ ih => exact ih
  | next _ ih => exact Nat.lt_of_succ_lt ih

theorem Rows.bounds
    (h : Rows k owned rows count) : ∀ row ∈ rows, k ≤ row.1 ∧ row.1 < count := by
  induction h with
  | done => exact forall_mem_nil _
  | user h ih => exact forall_mem_cons.mpr ⟨⟨Nat.le_refl _, h.lt⟩, ih⟩
  | owner h ih => exact forall_mem_cons.mpr ⟨⟨Nat.le_refl _, h.lt⟩, ih⟩
  | next _ ih => exact fun row hrow => ⟨Nat.le_of_succ_le (ih row hrow).1, (ih row hrow).2⟩

theorem Rows.ordered
    (h : Rows k owned rows count) : (rows.map (·.1)).Pairwise (· ≤ ·) := by
  have hcons : ∀ {k : Nat} {owned isOwner : Bool} {rows : List (Nat × Bool)} {count : Nat},
      Rows k owned rows count → (rows.map (·.1)).Pairwise (· ≤ ·) →
        (((k, isOwner) :: rows).map (·.1)).Pairwise (· ≤ ·) := by
    intro k owned isOwner rows count h hrows
    refine pairwise_cons.mpr ⟨?_, hrows⟩
    intro j hj
    obtain ⟨row, hrow, rfl⟩ := mem_map.mp hj
    exact (h.bounds row hrow).1
  induction h with
  | done => exact Pairwise.nil
  | user h ih => exact hcons h ih
  | owner h ih => exact hcons h ih
  | next _ ih => exact ih

/-- Each block that still has to be owned has one row of an owner. -/
theorem Rows.count_owner
    (h : Rows k owned rows count) :
    ∀ j, rows.count (j, true) = if (if owned then k < j else k ≤ j) ∧ j < count then 1 else 0 := by
  induction h with
  | @done k =>
    intro j
    refine (if_neg ?_).symm
    rintro ⟨hlt, hle⟩
    rw [if_pos rfl] at hlt
    exact absurd hlt (Nat.not_lt.mpr (Nat.le_of_lt_succ hle))
  | user _ ih => simpa [count_cons] using ih
  | @owner k rows count h ih =>
    intro j
    have hk := h.lt
    rw [count_cons, ih j]
    by_cases hj : k = j
    · subst hj
      simp [hk]
    · have hiff : k < j ↔ k ≤ j := ⟨Nat.le_of_lt, fun h => Nat.lt_of_le_of_ne h hj⟩
      simp [hj, hiff]
  | next _ ih =>
    intro j
    rw [ih j]
    rfl

/-- There are no more blocks than rows, and the block before them. -/
theorem Rows.count_le
    (h : Rows k owned rows count) : count ≤ k + rows.length + (if owned then 1 else 0) := by
  induction h with
  | done => simp
  | user _ ih =>
    rw [length_cons]
    omega
  | owner _ ih =>
    simp only [length_cons, if_true, Bool.false_eq_true, if_false] at ih ⊢
    omega
  | next _ ih =>
    simp only [if_true, Bool.false_eq_true, if_false] at ih ⊢
    omega

/-! ## 5. The assignment -/

/-- The rows of a whole pass. -/
theorem assignThunkBlocks_rows (maxBranchRange : UInt64)
    (hids : (objects.map (·.fileId)).Nodup) (hne : objects ≠ []) :
    ∃ rows, Rows 0 false rows (assignThunkBlocks maxBranchRange objects).1 ∧
      Says (assignThunkBlocks maxBranchRange objects).2 objects rows := by
  cases objects with
  | nil => exact absurd rfl hne
  | cons object objects =>
    obtain ⟨hfresh, hobjects⟩ := nodup_cons.mp hids
    obtain ⟨hnone, -⟩ := @Pass.run_rows maxBranchRange objects (Pass.initial object) 0 rfl
      (by simpa [Pass.waiting, Pass.initial] using hobjects)
    obtain ⟨rows, hrows, hrelates⟩ := hnone rfl rfl
    refine ⟨(0, true) :: rows, .owner hrows, .cons ?_ (hrelates.before [_])⟩
    have hlater := @Pass.lastCall_run_eq_none maxBranchRange _ (Pass.initial object) _ hfresh
      (by simp [Pass.waiting, Pass.initial])
    rw [assignThunkBlocks]
    simp only [lastCall_cons, hlater, if_true]
    rfl

/-- There are no more objects with files of their own than there are files. -/
theorem length_le_of_nodup (hids : (objects.map (·.fileId)).Nodup) :
    objects.length ≤ 2 ^ 32 := by
  have hnodup : (objects.map fun object => object.fileId.raw.toNat).Nodup := by
    have hinj : Function.Injective fun id : FileId => id.raw.toNat := by
      rintro ⟨a⟩ ⟨b⟩ h
      exact congrArg FileId.mk (UInt32.toNat_inj.mp h)
    simpa [Function.comp_def] using hids.map hinj
  have hsub : objects.map (fun object => object.fileId.raw.toNat) ⊆ range (2 ^ 32) := by
    intro n hn
    obtain ⟨object, -, rfl⟩ := mem_map.mp hn
    exact mem_range.mpr object.fileId.raw.toNat_lt
  simpa using (subperm_of_subset hnodup hsub).length_le

theorem asUsize_fromUsize {n : Nat} (h : n < 2 ^ 32) : (ThunkBlockId.fromUsize n).asUsize = n :=
  UInt32.toNat_ofNat_of_lt' h

/-- The block of an object: that of its last call. -/
def blockOf (calls : List Assignment) (object : Object) : Option Nat :=
  (lastCall object.fileId calls).map (·.1.asUsize)

/-- Objects in address order are cut into blocks, and each block has an owner among them. -/
structure Partition (objects : List Object) (count : Nat) (calls : List Assignment) : Prop where
  /-- an object has one block, that of its last call -/
  assigned : ∀ object ∈ objects, ∃ k < count, blockOf calls object = some k
  ordered : (objects.map (blockOf calls)).Pairwise fun a b => ∀ k ∈ a, ∀ l ∈ b, k ≤ l
  used : ∀ k < count, ∃ object ∈ objects, blockOf calls object = some k
  /-- one object's last call makes it an owner of the block, and it is the block's own user -/
  owned : ∀ k < count, ∃! object, object ∈ objects ∧ blockOf calls object = some k ∧
    (lastCall object.fileId calls).map (·.2) = some true

theorem Says.blocks
    (h : Says calls objects rows) (hlt : ∀ row ∈ rows, row.1 < 2 ^ 32) :
    objects.map (fun object =>
        (blockOf calls object, (lastCall object.fileId calls).map (·.2)))
      = rows.map fun row => (some row.1, some row.2) := by
  have hmap := congrArg (map fun last : Option (ThunkBlockId × Bool) =>
    (last.map (·.1.asUsize), last.map (·.2))) h
  rw [map_map, map_map] at hmap
  refine hmap.trans (map_congr_left ?_)
  intro row hrow
  simp only [Function.comp, Option.map_some, asUsize_fromUsize (hlt row hrow)]

theorem existsUnique_of_countP {α : Type} {p : α → Bool} {l : List α} (h : l.countP p = 1) :
    ∃! a, a ∈ l ∧ p a = true := by
  rw [countP_eq_length_filter, length_eq_one_iff] at h
  obtain ⟨a, ha⟩ := h
  refine ⟨a, mem_filter.mp (ha ▸ mem_singleton_self a), ?_⟩
  intro b hb
  exact mem_singleton.mp (ha ▸ mem_filter.mpr hb)

/-- **The objects are cut into blocks, each with one owner of its own.** -/
theorem assignThunkBlocks_partition (maxBranchRange : UInt64) {objects : List Object}
    (hids : (objects.map (·.fileId)).Nodup) :
    Partition objects (assignThunkBlocks maxBranchRange objects).1
      (assignThunkBlocks maxBranchRange objects).2 := by
  by_cases hne : objects = []
  · subst hne
    constructor <;> simp [assignThunkBlocks]
  obtain ⟨rows, hrows, hrelates⟩ := assignThunkBlocks_rows maxBranchRange hids hne
  generalize (assignThunkBlocks maxBranchRange objects).1 = count at hrows
  generalize (assignThunkBlocks maxBranchRange objects).2 = calls at hrelates
  have hlength : rows.length = objects.length := by
    simpa using (congrArg length hrelates).symm
  have hcount : count ≤ 2 ^ 32 := by
    have hle := hrows.count_le
    have hobjects := length_le_of_nodup hids
    simp only [Bool.false_eq_true, if_false] at hle
    omega
  have hblocks := hrelates.blocks fun row hrow =>
    Nat.lt_of_lt_of_le (hrows.bounds row hrow).2 hcount
  have hrow : ∀ object ∈ objects, ∃ row ∈ rows, blockOf calls object = some row.1 ∧
      (lastCall object.fileId calls).map (·.2) = some row.2 := by
    intro object hobject
    have hmem := mem_map_of_mem (f := fun o =>
      (blockOf calls o, (lastCall o.fileId calls).map (·.2))) hobject
    rw [hblocks, mem_map] at hmem
    obtain ⟨row, hrow, heq⟩ := hmem
    exact ⟨row, hrow, (congrArg Prod.fst heq).symm, (congrArg Prod.snd heq).symm⟩
  have howner : ∀ k < count, objects.countP (fun o => (blockOf calls o,
      (lastCall o.fileId calls).map (·.2)) = (some k, some true)) = 1 := by
    intro k hk
    have hcountRows := hrows.count_owner k
    rw [if_pos ⟨by simp, hk⟩, count_eq_countP] at hcountRows
    have hmapped := congrArg (countP (· = (some k, some true))) hblocks
    rw [countP_map, countP_map] at hmapped
    refine hmapped.trans (Eq.trans (countP_congr ?_) hcountRows)
    intro row _
    simp [Prod.ext_iff]
  constructor
  · intro object hobject
    obtain ⟨row, hrow, heq, -⟩ := hrow object hobject
    exact ⟨row.1, (hrows.bounds row hrow).2, heq⟩
  · have hfst := congrArg (map Prod.fst) hblocks
    rw [map_map, map_map] at hfst
    have hgoal : objects.map (blockOf calls) = (rows.map (·.1)).map some := by
      simpa [Function.comp_def] using hfst
    rw [hgoal, pairwise_map]
    exact hrows.ordered.imp fun hle => by simpa using hle
  · intro k hk
    obtain ⟨object, ⟨hobject, hp⟩, -⟩ := existsUnique_of_countP (howner k hk)
    exact ⟨object, hobject, congrArg Prod.fst (of_decide_eq_true hp)⟩
  · intro k hk
    simpa [Prod.ext_iff] using existsUnique_of_countP (howner k hk)

/-- Five objects with gaps, where the last places the second block. -/
def spacedObjects : List Object :=
  [⟨⟨0⟩, 0, 100⟩, ⟨⟨1⟩, 300, 400⟩, ⟨⟨2⟩, 600, 700⟩, ⟨⟨3⟩, 900, 1000⟩, ⟨⟨4⟩, 1200, 1300⟩]

example : (assignThunkBlocks 500 spacedObjects).1 = 2 := by decide

theorem assignThunkBlocks_partition_spaced :
    Partition spacedObjects (assignThunkBlocks 500 spacedObjects).1
      (assignThunkBlocks 500 spacedObjects).2 :=
  assignThunkBlocks_partition 500 (by decide)

end Srs.Thunks
