/-
# The traversal loses nothing

The protocol is a matter of bookkeeping.  Every worker is in one place, every item that was sent
is either begun or queued at its own group, every activation that was not counted yet is owed by
one task, and every request that was registered for a section is still there, on its way, or
sent.  These are equations between bags (`Inv.workers`, `Inv.pending`, `Inv.owed`,
`Inv.registered`); a step moves something from one term to another.

What does not add up by itself is said apart: a parked worker has nothing to do, also in its slot
(`Inv.slots`), the delayed groups have somebody who will take them (`Inv.taken`), and once a
section is asked for, nothing is registered any more and somebody is at its requests until there
are none (`Inv.drained`).
-/
import Mathlib.Algebra.BigOperators.Group.Multiset.Basic
import Mathlib.Algebra.Order.BigOperators.Group.Multiset
import Mathlib.Tactic.Abel
import Srs.Layout.Traversal
import Srs.Lib.Bag

namespace Srs.Layout

open List Option Function WorkAction GroupState WorkItem

section Correct

variable {n : Nat} {db : SymbolDb n} {files : Fin n → List FileLayoutState}

/-! ## 1. What tasks, slots and groups hold -/

/-- An item with the group that has to do it. -/
def WorkItem.tag (db : SymbolDb n) (item : WorkItem n) : Fin n × WorkItem n :=
  ((item.fileId db).group, item)

namespace GroupState

def pending (w : GroupState n) : Multiset (Fin n × WorkItem n) :=
  (w.queue.localWork.map fun item => (w.queue.index, item) : List (Fin n × WorkItem n))

theorem pending_push (w : GroupState n) (item : WorkItem n) :
    (w.push item).pending = (w.queue.index, item) ::ₘ w.pending := by
  simp only [pending, push, map_append, map_cons, map_nil]
  rw [← Multiset.coe_add, add_comm]
  rfl

end GroupState

namespace WorkerSlot

def workers (slot : WorkerSlot n) : Multiset (Fin n) :=
  match slot.worker with
  | some w => {w.queue.index}
  | none => 0

def pending (g : Fin n) (slot : WorkerSlot n) : Multiset (Fin n × WorkItem n) :=
  ((slot.work.map fun item => (g, item) : List (Fin n × WorkItem n)) : Multiset _)
    + match slot.worker with
      | some w => w.pending
      | none => 0

end WorkerSlot

/-- A popped request that is still to be sent. -/
def WorkAction.carried (section_ : OutputSectionId) : WorkAction n → Multiset (WorkItem n)
  | .forward o request => if o = section_ then {.loadSection request} else 0
  | _ => 0

namespace Task

def workers : Task n → Multiset (Fin n)
  | .activation g => {g}
  | .activateGroup w _ _ _ => {w.queue.index}
  | .doPendingWork w _ _ => {w.queue.index}
  | .countDown | .popDelayed => 0

def pending : Task n → Multiset (Fin n × WorkItem n)
  | .activateGroup w _ _ _ => w.pending
  | .doPendingWork w _ _ => w.pending
  | .activation _ | .countDown | .popDelayed => 0

/-- The number of times the task will count down. -/
def owed : Task n → Nat
  | .activation _ | .activateGroup _ _ _ _ | .countDown => 1
  | .doPendingWork _ _ after => if after = .countDown then 1 else 0
  | .popDelayed => 0

def carried (section_ : OutputSectionId) : Task n → Multiset (WorkItem n)
  | .doPendingWork _ actions _ => (actions.map (WorkAction.carried section_)).sum
  | _ => 0

/-- The task will look for delayed groups. -/
def Pops : Task n → Prop
  | .popDelayed => True
  | .doPendingWork _ _ after => after = .popDelayed
  | _ => False

/-- The task will look for requests for the section. -/
def Drains (section_ : OutputSectionId) : Task n → Prop
  | .doPendingWork _ actions _ => drain section_ ∈ actions
  | _ => False

end Task

/-- The group is put aside until all groups are activated. -/
def Delayed (files : Fin n → List FileLayoutState) (g : Fin n) : Prop :=
  FileLayoutState.syntheticSymbols ∈ files g

/-- The worker has the files of its group, and a delayed one is at work only after all groups
were activated. -/
def GroupState.Ok (files : Fin n → List FileLayoutState) (remaining : Nat) (w : GroupState n) :
    Prop :=
  w.files = files w.queue.index ∧ (Delayed files w.queue.index → remaining = 0)

def Task.Ok (files : Fin n → List FileLayoutState) (remaining : Nat) : Task n → Prop
  | .activation _ | .countDown => True
  | .activateGroup w file _ shouldDelay =>
    w.files = files w.queue.index
      ∧ shouldDelay = (w.files.take (file + 1)).any (· == .syntheticSymbols)
  | .doPendingWork w _ after => w.Ok files remaining ∧ (after = .popDelayed → remaining = 0)
  | .popDelayed => remaining = 0

/-! ## 2. The state as a whole -/

namespace State

/-- The sum of what the tasks hold. -/
def total {M : Type} [AddCommMonoid M] (f : Task n → M) (s : State n) : M := (s.tasks.map f).sum

/-- All workers, wherever they are. -/
def workers (s : State n) : Multiset (Fin n) :=
  s.total Task.workers + ∑ g, (s.workerSlots g).workers
    + (s.delayProcessing.map fun w => w.queue.index : List (Fin n))

/-- All items that are queued somewhere. -/
def pending (s : State n) : Multiset (Fin n × WorkItem n) :=
  s.total Task.pending + ∑ g, (s.workerSlots g).pending g
    + (s.delayProcessing.map GroupState.pending).sum

/-- The items that were sent for a section's `__start_` and `__stop_` symbols. -/
def forwarded (s : State n) (section_ : OutputSectionId) : Multiset (WorkItem n) :=
  (s.sent.filter fun x => x.1 = some section_).map (·.2)

@[simp] theorem total_spawn {M : Type} [AddCommMonoid M] (f : Task n → M) (s : State n)
    (t : Task n) : (s.spawn t).total f = f t + s.total f := by
  simp [total, spawn]

theorem workers_spawn (s : State n) (t : Task n) :
    (s.spawn t).workers = t.workers + s.workers := by
  unfold workers
  rw [total_spawn]
  simp only [spawn, add_assoc]

theorem pending_spawn (s : State n) (t : Task n) :
    (s.spawn t).pending = t.pending + s.pending := by
  unfold pending
  rw [total_spawn]
  simp only [spawn, add_assoc]

theorem forwarded_logSent (s : State n) (origin : Option OutputSectionId) (item : WorkItem n)
    (section_ : OutputSectionId) : (s.logSent origin item).forwarded section_
      = (if origin = some section_ then {item} else 0) + s.forwarded section_ := by
  by_cases ho : origin = some section_ <;> simp [forwarded, logSent, ho]

end State

/-- Some processed item asks for the sections between a `__start_` and a `__stop_` symbol. -/
def Requested (db : SymbolDb n) (files : Fin n → List FileLayoutState) (s : State n)
    (section_ : OutputSectionId) : Prop :=
  ∃ g symbolId, (g, loadGlobalSymbol symbolId) ∈ s.processed
    ∧ (files g)[(db.fileIdForSymbol symbolId).file]? = some .syntheticSymbols
    ∧ db.sectionIdForLoading symbolId = some section_

/-- **The invariant of the traversal.** -/
structure Inv (db : SymbolDb n) (files : Fin n → List FileLayoutState) (s : State n) : Prop where
  workers : s.workers = Finset.univ.val
  pending : s.sent.map (fun x => x.2.tag db) = s.processed + s.pending
  owed : s.activationsRemaining = s.total Task.owed
  registered : ∀ section_, (s.registered section_).map loadSection
    = (s.startStopSections section_ : Multiset _).map loadSection
      + s.total (Task.carried section_) + s.forwarded section_
  tasks : ∀ t ∈ s.tasks, t.Ok files s.activationsRemaining
  slots : ∀ g w, (s.workerSlots g).worker = some w →
    w.queue = ⟨g, []⟩ ∧ (s.workerSlots g).work = [] ∧ w.Ok files s.activationsRemaining
  delayed : ∀ w ∈ s.delayProcessing, w.files = files w.queue.index
  taken : s.delayProcessing ≠ [] → 0 < s.activationsRemaining ∨ ∃ t ∈ s.tasks, t.Pops
  drained : ∀ section_, Requested db files s section_ → s.activationsRemaining = 0
    ∧ (s.startStopSections section_ = [] ∨ ∃ t ∈ s.tasks, t.Drains section_)

/-! ## 3. One task goes on -/

/-- `t'` is `t` after a step that does not touch the worker's place. -/
structure Advances (files : Fin n → List FileLayoutState) (remaining : Nat) (t t' : Task n) :
    Prop where
  workers : t'.workers = t.workers
  owed : t'.owed = t.owed
  ok : t.Ok files remaining → t'.Ok files remaining
  pops : t.Pops → t'.Pops

variable {t : Task n} {rest : Multiset (Task n)} {t' : Task n} {w : GroupState n} {after : After}
  {actions : List (WorkAction n)} {choice : Choice n} {file : Nat} {shouldDelay : Bool}

theorem ok_of_spawn {s : State n} (h : Inv db files (s.spawn t)) :
    t.Ok files s.activationsRemaining :=
  h.tasks t (Multiset.mem_cons_self t s.tasks)

variable {P : Task n → Prop}

theorem exists_mem_cons
    (hp : P t → P t') (h : ∃ x ∈ t ::ₘ rest, P x) : ∃ x ∈ t' ::ₘ rest, P x := by
  obtain ⟨x, hx, hP⟩ := h
  rcases Multiset.mem_cons.mp hx with rfl | hx
  · exact ⟨t', Multiset.mem_cons_self t' rest, hp hP⟩
  · exact ⟨x, Multiset.mem_cons_of_mem hx, hP⟩

theorem forall_mem_cons
    (hp : P t → P t') (h : ∀ x ∈ t ::ₘ rest, P x) : ∀ x ∈ t' ::ₘ rest, P x := by
  intro x hx
  rcases Multiset.mem_cons.mp hx with rfl | hx
  · exact hp (h t (Multiset.mem_cons_self t rest))
  · exact h x (Multiset.mem_cons_of_mem hx)

/-- The task does something that only concerns itself. -/
theorem Inv.advance {s : State n} (h : Inv db files (s.spawn t))
    (ha : Advances files s.activationsRemaining t t') (hp : t'.pending = t.pending)
    (hc : ∀ section_, t'.carried section_ = t.carried section_)
    (hd : ∀ section_, t.Drains section_ →
      t'.Drains section_ ∨ s.startStopSections section_ = []) :
    Inv db files (s.spawn t') where
  workers := by
    rw [State.workers_spawn, ha.workers, ← State.workers_spawn]
    exact h.workers
  pending := by
    rw [State.pending_spawn, hp, ← State.pending_spawn]
    exact h.pending
  owed := by
    rw [State.total_spawn, ha.owed, ← State.total_spawn]
    exact h.owed
  registered := by
    intro section_
    rw [State.total_spawn, hc, ← State.total_spawn]
    exact h.registered section_
  tasks := forall_mem_cons ha.ok h.tasks
  slots := h.slots
  delayed := h.delayed
  taken := fun hne => (h.taken hne).imp_right (exists_mem_cons ha.pops)
  drained := by
    intro section_ hr
    obtain ⟨h0, hs⟩ := h.drained section_ hr
    refine ⟨h0, ?_⟩
    rcases hs with hs | ⟨x, hx, hdr⟩
    · exact .inl hs
    · rcases Multiset.mem_cons.mp hx with rfl | hx
      · exact (hd section_ hdr).symm.imp_right
          fun hdr => ⟨t', Multiset.mem_cons_self t' s.tasks, hdr⟩
      · exact .inr ⟨x, Multiset.mem_cons_of_mem hx, hdr⟩

/-- The task queues an item for its own group. -/
theorem Inv.push {s : State n} {item : WorkItem n}
    (h : Inv db files (s.spawn t)) (ha : Advances files s.activationsRemaining t t')
    (hp : t'.pending = item.tag db ::ₘ t.pending)
    (hc : ∀ section_, t'.carried section_ = t.carried section_)
    (hd : ∀ section_, t.Drains section_ → t'.Drains section_) :
    Inv db files ((s.logSent none item).spawn t') where
  workers := by
    rw [State.workers_spawn, ha.workers]
    exact (State.workers_spawn s t).symm.trans h.workers
  pending := by
    have hpend := h.pending
    rw [State.pending_spawn] at hpend ⊢
    rw [hp]
    simp only [State.spawn, State.logSent, Multiset.map_cons] at hpend ⊢
    rw [hpend, Multiset.cons_add, Multiset.add_cons]
    rfl
  owed := by
    rw [State.total_spawn, ha.owed]
    exact h.owed.trans (State.total_spawn _ s t)
  registered := by
    intro section_
    have hreg := h.registered section_
    rw [State.total_spawn] at hreg ⊢
    rw [hc]
    have hf := s.forwarded_logSent none item section_
    rw [if_neg (by simp), zero_add] at hf
    exact hreg.trans (congrArg _ hf.symm)
  tasks := forall_mem_cons ha.ok h.tasks
  slots := h.slots
  delayed := h.delayed
  taken := fun hne => (h.taken hne).imp_right (exists_mem_cons ha.pops)
  drained := fun section_ hr => (h.drained section_ hr).imp_right fun hs =>
    hs.imp_right (exists_mem_cons (hd section_))

/-! ## 4. Slots -/

theorem workers_setSlot (s : State n) (g : Fin n) (slot : WorkerSlot n) :
    (s.setSlot g slot).workers + (s.workerSlots g).workers = slot.workers + s.workers := by
  have hnew := Bag.sum_update (Finset.mem_univ g) (fun _ (x : WorkerSlot n) => x.workers)
    s.workerSlots slot
  have hold := Bag.sum_eq (Finset.mem_univ g) (fun _ (x : WorkerSlot n) => x.workers)
    s.workerSlots
  simp only [State.workers, State.setSlot, State.total, hnew, hold]
  abel

theorem pending_setSlot (s : State n) (g : Fin n) (slot : WorkerSlot n) :
    (s.setSlot g slot).pending + (s.workerSlots g).pending g = slot.pending g + s.pending := by
  have hnew := Bag.sum_update (Finset.mem_univ g) (fun i (x : WorkerSlot n) => x.pending i)
    s.workerSlots slot
  have hold := Bag.sum_eq (Finset.mem_univ g) (fun i (x : WorkerSlot n) => x.pending i)
    s.workerSlots
  simp only [State.pending, State.setSlot, State.total, hnew, hold]
  abel

section

variable (s : State n) (fileId : FileId n) (item : WorkItem n)
include s fileId item

/-- What sending work does: it may start one task. -/
theorem sendWork_cases :
    ((s.workerSlots fileId.group).worker = none
      ∧ s.sendWork fileId item = s.setSlot fileId.group
        ⟨(s.workerSlots fileId.group).work ++ [item], none⟩)
    ∨ ∃ w, (s.workerSlots fileId.group).worker = some w
      ∧ s.sendWork fileId item = (s.setSlot fileId.group
        ⟨(s.workerSlots fileId.group).work ++ [item], none⟩).spawn
          (.doPendingWork w [] .done) := by
  cases hw : (s.workerSlots fileId.group).worker with
  | none =>
    refine .inl ⟨rfl, ?_⟩
    simp only [State.sendWork, hw]
  | some w =>
    refine .inr ⟨w, rfl, ?_⟩
    simp only [State.sendWork, hw]

/-- Sending work moves nothing but a worker that was parked. -/
theorem workers_sendWork :
    (s.sendWork fileId item).workers = s.workers := by
  have hset := workers_setSlot s fileId.group ⟨(s.workerSlots fileId.group).work ++ [item], none⟩
  rcases sendWork_cases s fileId item with ⟨hw, he⟩ | ⟨w, hw, he⟩
  · rw [he]
    simpa [WorkerSlot.workers, hw] using hset
  · rw [he, State.workers_spawn, add_comm]
    simpa [WorkerSlot.workers, hw, Task.workers] using hset

theorem pending_sendWork :
    (s.sendWork fileId item).pending = (fileId.group, item) ::ₘ s.pending := by
  have hset := pending_setSlot s fileId.group ⟨(s.workerSlots fileId.group).work ++ [item], none⟩
  have happ : ((((s.workerSlots fileId.group).work ++ [item]).map fun i => (fileId.group, i)
        : List (Fin n × WorkItem n)) : Multiset _)
      = {(fileId.group, item)}
        + (((s.workerSlots fileId.group).work.map fun i => (fileId.group, i)
          : List (Fin n × WorkItem n)) : Multiset _) := by
    rw [map_append, ← Multiset.coe_add, add_comm]
    rfl
  rw [← Multiset.singleton_add]
  rcases sendWork_cases s fileId item with ⟨hw, he⟩ | ⟨w, hw, he⟩
  · simp only [WorkerSlot.pending, hw, happ, add_zero] at hset
    rw [he]
    refine add_right_cancel (hset.trans ?_)
    abel
  · simp only [WorkerSlot.pending, hw, happ, add_zero] at hset
    rw [he, State.pending_spawn]
    simp only [Task.pending]
    generalize (s.setSlot fileId.group
      ⟨(s.workerSlots fileId.group).work ++ [item], none⟩).pending = S at hset ⊢
    generalize (((s.workerSlots fileId.group).work.map fun i => (fileId.group, i)
      : List (Fin n × WorkItem n)) : Multiset (Fin n × WorkItem n)) = A at hset
    have hsum : w.pending + S + A = {(fileId.group, item)} + s.pending + A := by
      calc w.pending + S + A = S + (A + w.pending) := by abel
        _ = {(fileId.group, item)} + A + s.pending := hset
        _ = {(fileId.group, item)} + s.pending + A := by abel
    exact add_right_cancel hsum

end

section SendWork

variable (s : State n) (fileId : FileId n) (item : WorkItem n)

theorem total_sendWork {M : Type} [AddCommMonoid M] {f : Task n → M}
    (hf : ∀ w, f (.doPendingWork w [] .done) = 0) :
    (s.sendWork fileId item).total f = s.total f := by
  rcases sendWork_cases s fileId item with ⟨-, he⟩ | ⟨w, -, he⟩
  · rw [he]
    rfl
  · rw [he, State.total_spawn, hf, zero_add]
    rfl

theorem sendWork_frame : (s.sendWork fileId item).activationsRemaining = s.activationsRemaining
    ∧ (s.sendWork fileId item).delayProcessing = s.delayProcessing
    ∧ (s.sendWork fileId item).startStopSections = s.startStopSections
    ∧ (s.sendWork fileId item).registered = s.registered
    ∧ (s.sendWork fileId item).sent = s.sent
    ∧ (s.sendWork fileId item).processed = s.processed
    ∧ (s.sendWork fileId item).errors = s.errors := by
  rcases sendWork_cases s fileId item with ⟨-, he⟩ | ⟨w, -, he⟩ <;> rw [he] <;>
    exact ⟨rfl, rfl, rfl, rfl, rfl, rfl, rfl⟩

theorem mem_tasks_sendWork {x : Task n} : x ∈ (s.sendWork fileId item).tasks ↔ x ∈ s.tasks
    ∨ ∃ w, (s.workerSlots fileId.group).worker = some w ∧ x = .doPendingWork w [] .done := by
  rcases sendWork_cases s fileId item with ⟨hw, he⟩ | ⟨w, hw, he⟩
  · rw [he, hw]
    simp [State.setSlot]
  · rw [he, hw]
    simp only [State.spawn, State.setSlot, Multiset.mem_cons, some.injEq,
      exists_eq_left']
    exact or_comm

theorem worker_sendWork {g : Fin n} {w : GroupState n}
    (h : ((s.sendWork fileId item).workerSlots g).worker = some w) :
    (s.sendWork fileId item).workerSlots g = s.workerSlots g := by
  have hslots : (s.sendWork fileId item).workerSlots = update s.workerSlots fileId.group
      ⟨(s.workerSlots fileId.group).work ++ [item], none⟩ := by
    rcases sendWork_cases s fileId item with ⟨-, he⟩ | ⟨w, -, he⟩ <;> rw [he] <;> rfl
  rw [hslots] at h ⊢
  by_cases hg : g = fileId.group
  · subst hg
    rw [update_self] at h
    cases h
  · exact update_of_ne hg _ _

end SendWork

/-- **The task sends work to a slot.** -/
theorem Inv.send {s : State n} {origin : Option OutputSectionId}
    {item : WorkItem n} (h : Inv db files (s.spawn t))
    (ha : Advances files s.activationsRemaining t t') (hp : t'.pending = t.pending)
    (hc : ∀ section_, t.carried section_
      = (if origin = some section_ then {item} else 0) + t'.carried section_)
    (hd : ∀ section_, t.Drains section_ → t'.Drains section_) :
    Inv db files (((s.logSent origin item).sendWork (item.fileId db) item).spawn t') := by
  obtain ⟨hrem, hdel, hss, hreg, hsent, hproc, -⟩ :=
    sendWork_frame (s.logSent origin item) (item.fileId db) item
  have hmem : ∀ {P : Task n → Prop}, (P t → P t') → (∃ x ∈ t ::ₘ s.tasks, P x) →
      ∃ x ∈ t' ::ₘ ((s.logSent origin item).sendWork (item.fileId db) item).tasks, P x := by
    intro P hP hx
    obtain ⟨x, hx, hPx⟩ := exists_mem_cons hP hx
    refine ⟨x, ?_, hPx⟩
    rcases Multiset.mem_cons.mp hx with rfl | hx
    · exact Multiset.mem_cons_self _ _
    · exact Multiset.mem_cons_of_mem ((mem_tasks_sendWork _ _ _).mpr (.inl hx))
  refine ⟨?_, ?_, ?_, ?_, ?_, ?_, ?_, ?_, ?_⟩
  · rw [State.workers_spawn, workers_sendWork, ha.workers]
    exact (State.workers_spawn s t).symm.trans h.workers
  · have hpend := h.pending
    rw [State.pending_spawn] at hpend ⊢
    rw [pending_sendWork, hp]
    simp only [State.spawn, hsent, hproc]
    simp only [State.spawn] at hpend
    simp only [State.logSent, Multiset.map_cons, hpend]
    rw [Multiset.add_cons, Multiset.add_cons]
    rfl
  · rw [State.total_spawn, total_sendWork _ _ _ fun w => rfl, ha.owed]
    exact hrem.trans (h.owed.trans (State.total_spawn _ s t))
  · intro section_
    have hregd := h.registered section_
    rw [State.total_spawn, hc] at hregd
    rw [State.total_spawn, total_sendWork _ _ _ fun w => rfl]
    have hf : (((s.logSent origin item).sendWork (item.fileId db) item).spawn t').forwarded section_
        = (if origin = some section_ then {item} else 0) + s.forwarded section_ := by
      rw [← s.forwarded_logSent]
      simp only [State.forwarded, State.spawn, hsent]
    have hs : (s.spawn t).forwarded section_ = s.forwarded section_ := rfl
    rw [hf]
    rw [hs] at hregd
    simp only [State.spawn, hreg, hss]
    simp only [State.spawn] at hregd
    simp only [State.logSent]
    rw [hregd]
    simp only [State.total]
    abel
  · intro x hx
    simp only [State.spawn, hrem]
    rcases Multiset.mem_cons.mp hx with rfl | hx
    · exact ha.ok (ok_of_spawn h)
    · rcases (mem_tasks_sendWork _ _ _).mp hx with hx | ⟨w, hw, rfl⟩
      · exact h.tasks x (Multiset.mem_cons_of_mem hx)
      · exact ⟨(h.slots _ w hw).2.2, fun he => by cases he⟩
  · intro g w hw
    simp only [State.spawn, hrem] at hw ⊢
    have he := worker_sendWork _ _ _ hw
    rw [he] at hw ⊢
    exact h.slots g w hw
  · intro w hw
    simp only [State.spawn, hdel] at hw
    exact h.delayed w hw
  · intro hne
    simp only [State.spawn, hdel, hrem] at hne ⊢
    exact (h.taken hne).imp_right (hmem ha.pops)
  · intro section_ hr
    have hr' : Requested db files (s.spawn t) section_ := by
      simp only [Requested, State.spawn, hproc] at hr
      exact hr
    simp only [State.spawn, hrem, hss]
    exact (h.drained section_ hr').imp_right fun hs => hs.imp_right (hmem (hd section_))

/-! ## 5. Leaving and entering a slot -/

/-- A worker that is at work is not in its slot. -/
theorem Inv.worker_eq_none {s : State n} {g : Fin n}
    (h : Inv db files (s.spawn t)) (ht : t.workers = {g}) : (s.workerSlots g).worker = none := by
  cases hw : (s.workerSlots g).worker with
  | none => rfl
  | some w =>
    have hq : w.queue.index = g := by rw [(h.slots g w hw).1]
    have hslot : (s.workerSlots g).workers = {g} := by simp [WorkerSlot.workers, hw, hq]
    have hle : {g} ≤ s.workers := by
      have hsum := Bag.sum_eq (Finset.mem_univ g) (fun _ (x : WorkerSlot n) => x.workers)
        s.workerSlots
      simp only [hslot] at hsum
      unfold State.workers
      rw [hsum]
      exact (Multiset.le_add_right _ _).trans
        ((Multiset.le_add_left _ _).trans (Multiset.le_add_right _ _))
    have hcount := congrArg (Multiset.count g) h.workers
    rw [State.workers_spawn, ht, Multiset.count_add, Multiset.count_singleton_self,
      Multiset.count_eq_one_of_mem Finset.univ.nodup (Finset.mem_univ g)] at hcount
    have hone := Multiset.count_le_of_le g hle
    rw [Multiset.count_singleton_self] at hone
    omega

/-- What is left of a task after `do_pending_work`. -/
def After.tasks : After → Multiset (Task n)
  | .countDown => {.countDown}
  | .popDelayed => {.popDelayed}
  | .done => 0

theorem resume_eq (s : State n) (after : After) :
    s.resume after = { s with tasks := after.tasks + s.tasks } := by
  cases after with
  | countDown => rfl
  | popDelayed => rfl
  | done => simp [State.resume, After.tasks]

/-- **The worker parks**: it has nothing to do, and neither has its slot. -/
theorem Inv.park {s : State n}
    (h : Inv db files (s.spawn (.doPendingWork w [] after))) (hl : w.queue.localWork = [])
    (hw : (s.workerSlots w.queue.index).work = []) :
    Inv db files ((s.setSlot w.queue.index
      { s.workerSlots w.queue.index with worker := some w }).resume after) := by
  obtain ⟨g, hg⟩ : ∃ g, w.queue.index = g := ⟨_, rfl⟩
  have hnone := h.worker_eq_none (show _ = {w.queue.index} from rfl)
  obtain ⟨hok, hafter⟩ := ok_of_spawn h
  rw [hg] at hw hnone ⊢
  rw [resume_eq]
  have hset := workers_setSlot s g { s.workerSlots g with worker := some w }
  have hpset := pending_setSlot s g { s.workerSlots g with worker := some w }
  have hempty : w.pending = 0 := by simp [GroupState.pending, hl]
  have hafterW : (after.tasks.map Task.workers).sum = (0 : Multiset (Fin n)) := by
    cases after <;> simp [After.tasks, Task.workers]
  have hafterP : (after.tasks.map Task.pending).sum = (0 : Multiset (Fin n × WorkItem n)) := by
    cases after <;> simp [After.tasks, Task.pending]
  have hafterO : ((after.tasks : Multiset (Task n)).map Task.owed).sum
      = (Task.doPendingWork w [] after).owed := by
    cases after <;> simp [After.tasks, Task.owed]
  have hafterC : ∀ section_, (after.tasks.map (Task.carried section_)).sum
      = (0 : Multiset (WorkItem n)) := by
    intro section_
    cases after <;> simp [After.tasks, Task.carried]
  refine ⟨?_, ?_, ?_, ?_, ?_, ?_, h.delayed, ?_, ?_⟩
  · have hworkers := h.workers
    rw [State.workers_spawn] at hworkers
    simp only [WorkerSlot.workers, hnone, add_zero, hg] at hset
    simp only [Task.workers, hg] at hworkers
    rw [← hworkers, ← hset]
    simp only [State.workers, State.total, State.setSlot, Multiset.map_add, Multiset.sum_add,
      hafterW, zero_add]
  · have hpend := h.pending
    rw [State.pending_spawn] at hpend
    simp only [WorkerSlot.pending, hnone, hw, hempty, map_nil, Multiset.coe_nil,
      add_zero, zero_add] at hpset
    simp only [Task.pending, hempty, zero_add] at hpend
    refine hpend.trans (congrArg _ ?_)
    rw [← hpset]
    simp only [State.pending, State.total, State.setSlot, Multiset.map_add, Multiset.sum_add,
      hafterP, zero_add, hw]
  · refine h.owed.trans ?_
    rw [State.total_spawn, ← hafterO]
    simp [State.total, State.setSlot]
  · intro section_
    refine (h.registered section_).trans ?_
    rw [State.total_spawn]
    simp only [State.total, State.setSlot, Multiset.map_add, Multiset.sum_add, hafterC]
    rfl
  · intro x hx
    rcases Multiset.mem_add.mp hx with hx | hx
    · cases after with
      | countDown =>
        obtain rfl := Multiset.mem_singleton.mp hx
        trivial
      | popDelayed =>
        obtain rfl := Multiset.mem_singleton.mp hx
        exact hafter rfl
      | done => exact absurd hx (Multiset.notMem_zero x)
    · exact h.tasks x (Multiset.mem_cons_of_mem hx)
  · intro g' w' hw'
    simp only [State.setSlot] at hw' ⊢
    by_cases hgg : g' = g
    · subst hgg
      rw [update_self] at hw' ⊢
      cases hw'
      refine ⟨?_, hw, hok⟩
      rw [← hg, ← hl]
    · rw [update_of_ne hgg] at hw' ⊢
      exact h.slots g' w' hw'
  · intro hne
    refine (h.taken hne).imp_right ?_
    rintro ⟨x, hx, hp⟩
    rcases Multiset.mem_cons.mp hx with rfl | hx
    · obtain rfl : after = .popDelayed := hp
      exact ⟨.popDelayed, Multiset.mem_add.mpr (.inl (Multiset.mem_singleton_self _)), trivial⟩
    · exact ⟨x, Multiset.mem_add.mpr (.inr hx), hp⟩
  · intro section_ hr
    refine (h.drained section_ hr).imp_right fun hs => hs.imp_right ?_
    rintro ⟨x, hx, hp⟩
    rcases Multiset.mem_cons.mp hx with rfl | hx
    · exact absurd hp not_mem_nil
    · exact ⟨x, Multiset.mem_add.mpr (.inr hx), hp⟩

/-- The worker takes the work from its slot. -/
theorem Inv.takeWork {s : State n}
    (h : Inv db files (s.spawn (.doPendingWork w [] after))) (hl : w.queue.localWork = []) :
    Inv db files ((s.setSlot w.queue.index
        { s.workerSlots w.queue.index with work := w.queue.localWork }).spawn
      (.doPendingWork { w with queue := ⟨w.queue.index, (s.workerSlots w.queue.index).work⟩ } []
        after)) := by
  have hnone := h.worker_eq_none (show _ = {w.queue.index} from rfl)
  have hset := workers_setSlot s w.queue.index
    { s.workerSlots w.queue.index with work := w.queue.localWork }
  have hpset := pending_setSlot s w.queue.index
    { s.workerSlots w.queue.index with work := w.queue.localWork }
  simp only [WorkerSlot.workers, hnone, add_zero, zero_add] at hset
  simp only [WorkerSlot.pending, hnone, hl, map_nil, Multiset.coe_nil, add_zero,
    zero_add] at hpset
  refine ⟨?_, ?_, h.owed.trans ?_, ?_, ?_, ?_, h.delayed, ?_, ?_⟩
  · have hworkers := h.workers
    rw [State.workers_spawn] at hworkers ⊢
    simp only [hnone] at hset ⊢
    rw [hset]
    exact hworkers
  · have hpend := h.pending
    rw [State.pending_spawn] at hpend ⊢
    simp only [Task.pending, GroupState.pending, hl, map_nil, Multiset.coe_nil,
      zero_add] at hpend
    refine hpend.trans (congrArg _ ?_)
    rw [← hpset, add_comm]
    simp only [Task.pending, GroupState.pending, hl, hnone]
  · rw [State.total_spawn, State.total_spawn]
    rfl
  · intro section_
    refine (h.registered section_).trans ?_
    rw [State.total_spawn, State.total_spawn]
    rfl
  · exact forall_mem_cons (t := .doPendingWork w [] after) (fun hok => hok) h.tasks
  · intro g w' hw'
    simp only [State.spawn, State.setSlot] at hw' ⊢
    by_cases hg : g = w.queue.index
    · subst hg
      rw [update_self] at hw'
      exact absurd (hnone.symm.trans hw') (by simp)
    · rw [update_of_ne hg] at hw' ⊢
      exact h.slots g w' hw'
  · intro hne
    exact (h.taken hne).imp_right (exists_mem_cons (t := .doPendingWork w [] after) fun hp => hp)
  · intro section_ hr
    exact (h.drained section_ hr).imp_right fun hs =>
      hs.imp_right (exists_mem_cons (t := .doPendingWork w [] after) fun hp => hp)

/-! ## 6. Items, requests and counts -/

/-- What a worker has in its queue is for its group. -/
theorem Inv.group_eq {s : State n} (h : Inv db files (s.spawn (.doPendingWork w actions after)))
    {item : WorkItem n} (hi : item ∈ w.queue.localWork) :
    (item.fileId db).group = w.queue.index := by
  have hmem : (w.queue.index, item) ∈ s.sent.map fun x => x.2.tag db := by
    have hpend := h.pending
    rw [State.pending_spawn] at hpend
    refine hpend ▸ Multiset.mem_add.mpr (.inr (Multiset.mem_add.mpr (.inl ?_)))
    exact Multiset.mem_coe.mpr (mem_map.mpr ⟨item, hi, rfl⟩)
  obtain ⟨x, -, hx⟩ := Multiset.mem_map.mp hmem
  obtain ⟨h1, h2⟩ := Prod.mk.inj hx
  rw [← h1, ← h2]

theorem drain_mem_doWork {symbolId : SymbolId} {section_ : OutputSectionId}
    (hs : db.sectionIdForLoading symbolId = some section_) :
    drain section_
      ∈ doWork db choice .syntheticSymbols (.loadGlobalSymbol symbolId) := by
  simp [doWork, hs]

theorem carried_doWork (choice : Choice n) (file : FileLayoutState) (item : WorkItem n)
    (section_ : OutputSectionId) :
    ((doWork db choice file item).map (carried section_)).sum = 0 := by
  have hany : ((anyWork choice).map (carried section_)).sum = 0 := by
    rw [anyWork, map_append, sum_append]
    have hsend : ((choice.work.map send).map (carried section_)).sum = 0 := by
      refine sum_eq_zero ?_
      intro x hx
      rw [List.map_map] at hx
      obtain ⟨item, -, rfl⟩ := mem_map.mp hx
      rfl
    rw [hsend, zero_add]
    cases choice.error <;> simp [carried]
  cases item <;> cases file <;> simp only [doWork, hany] <;>
    first | rfl | (split <;> rfl)

/-- The worker begins with the last item of its queue. -/
theorem Inv.begin {s : State n} {item : WorkItem n} {file : FileLayoutState}
    (h : Inv db files (s.spawn (.doPendingWork w [] after)))
    (hitem : w.queue.localWork.getLast? = some item)
    (hfile : w.files[(item.fileId db).file]? = some file) :
    Inv db files ({ s with processed := (w.queue.index, item) ::ₘ s.processed }.spawn
      (.doPendingWork { w with queue := ⟨w.queue.index, w.queue.localWork.dropLast⟩ }
        (doWork db choice file item) after)) := by
  have hmem := mem_of_getLast? hitem
  have hgroup := h.group_eq hmem
  obtain ⟨⟨hfiles, hdelayed⟩, -⟩ := ok_of_spawn h
  have hqueue : w.queue.localWork = w.queue.localWork.dropLast ++ [item] := by
    obtain ⟨l, hl⟩ := getLast?_eq_some_iff.mp hitem
    rw [hl, dropLast_concat]
  have hpending : w.pending = (w.queue.index, item) ::ₘ
      ({ w with queue := ⟨w.queue.index, w.queue.localWork.dropLast⟩ } : GroupState n).pending := by
    have hpush := GroupState.pending_push
      ⟨⟨w.queue.index, w.queue.localWork.dropLast⟩, w.files⟩ item
    simp only [GroupState.push, ← hqueue] at hpush
    exact hpush
  refine ⟨?_, ?_, h.owed.trans ?_, ?_, forall_mem_cons (t := .doPendingWork w [] after) (fun hok => hok) h.tasks,
    h.slots, h.delayed, fun hne => (h.taken hne).imp_right
      (exists_mem_cons (t := .doPendingWork w [] after) fun hp => hp), ?_⟩
  · rw [State.workers_spawn]
    exact (State.workers_spawn s (.doPendingWork w [] after)).symm.trans h.workers
  · have hpend := h.pending
    rw [State.pending_spawn] at hpend ⊢
    simp only [Task.pending, hpending] at hpend
    refine hpend.trans ?_
    simp only [State.spawn, Task.pending, Multiset.cons_add, Multiset.add_cons]
    rfl
  · rw [State.total_spawn, State.total_spawn]
    rfl
  · intro section_
    refine (h.registered section_).trans ?_
    rw [State.total_spawn, State.total_spawn]
    simp only [Task.carried, carried_doWork]
    rfl
  · intro section_ hr
    obtain ⟨g, symbolId, hproc, hsyn, hsec⟩ := hr
    rcases Multiset.mem_cons.mp hproc with heq | hproc
    · -- the request that is begun now
      cases heq
      have hfile' : file = .syntheticSymbols := by
        rw [hfiles] at hfile
        exact some.inj (hfile.symm.trans hsyn)
      subst hfile'
      have hd : Delayed files w.queue.index := mem_of_getElem? hsyn
      exact ⟨hdelayed hd, .inr ⟨_, Multiset.mem_cons_self _ _, drain_mem_doWork hsec⟩⟩
    · obtain ⟨h0, hs⟩ := h.drained section_ ⟨g, symbolId, hproc, hsyn, hsec⟩
      refine ⟨h0, hs.imp_right (exists_mem_cons (t := .doPendingWork w [] after) ?_)⟩
      intro hp
      exact absurd hp not_mem_nil

variable {action : ActivateAction n}

/-- A section is registered; that is done in an activation only. -/
theorem Inv.register {s : State n} {actions : List (ActivateAction n)}
    (h : Inv db files (s.spawn (.activateGroup w file (action :: actions) shouldDelay)))
    (o : OutputSectionId) (request : SectionLoadRequest n) :
    Inv db files ({ s with
      startStopSections := update s.startStopSections o
        (s.startStopSections o ++ [request])
      registered := update s.registered o (request ::ₘ s.registered o) }.spawn
      (.activateGroup w file actions shouldDelay)) := by
  have hpos : s.activationsRemaining ≠ 0 := by
    have howed := h.owed
    rw [State.total_spawn] at howed
    simp only [Task.owed, State.spawn] at howed
    omega
  refine ⟨?_, ?_, h.owed.trans ?_, ?_, forall_mem_cons (t := .activateGroup w file (action :: actions) shouldDelay) (fun hok => hok) h.tasks,
    h.slots, h.delayed, fun hne => (h.taken hne).imp_right
      (exists_mem_cons (t := .activateGroup w file (action :: actions) shouldDelay) fun hp => hp), ?_⟩
  · rw [State.workers_spawn]
    exact (State.workers_spawn s (.activateGroup w file (action :: actions) shouldDelay)).symm.trans h.workers
  · have hpend := h.pending
    rw [State.pending_spawn] at hpend ⊢
    exact hpend
  · rw [State.total_spawn, State.total_spawn]
    rfl
  · intro section_
    have hreg := h.registered section_
    rw [State.total_spawn] at hreg ⊢
    simp only [State.spawn, Task.carried] at hreg ⊢
    by_cases ho : section_ = o
    · subst ho
      rw [update_self, update_self, Multiset.map_cons, hreg,
        ← Multiset.coe_add, Multiset.map_add, ← Multiset.singleton_add]
      simp only [Multiset.coe_singleton, Multiset.map_singleton]
      simp only [State.total, State.forwarded]
      abel
    · rw [update_of_ne ho, update_of_ne ho]
      exact hreg
  · intro section_ hr
    exact absurd (h.drained section_ hr).1 hpos

/-- A request is popped. -/
theorem Inv.pop {s : State n}
    {o : OutputSectionId} {request : SectionLoadRequest n} {rest : List (SectionLoadRequest n)}
    (h : Inv db files (s.spawn (.doPendingWork w (.drain o :: actions) after)))
    (hs : s.startStopSections o = request :: rest) :
    Inv db files ({ s with startStopSections := update s.startStopSections o rest }.spawn
      (.doPendingWork w (.forward o request :: .drain o :: actions) after)) := by
  refine ⟨?_, ?_, h.owed.trans ?_, ?_, forall_mem_cons (t := .doPendingWork w (.drain o :: actions) after) (fun hok => hok) h.tasks,
    h.slots, h.delayed, fun hne => (h.taken hne).imp_right
      (exists_mem_cons (t := .doPendingWork w (.drain o :: actions) after) fun hp => hp), ?_⟩
  · rw [State.workers_spawn]
    exact (State.workers_spawn s (.doPendingWork w (.drain o :: actions) after)).symm.trans h.workers
  · have hpend := h.pending
    rw [State.pending_spawn] at hpend ⊢
    exact hpend
  · rw [State.total_spawn, State.total_spawn]
    rfl
  · intro section_
    refine (h.registered section_).trans ?_
    rw [State.total_spawn, State.total_spawn]
    simp only [State.spawn, Task.carried, map_cons, sum_cons, carried,
      zero_add]
    by_cases ho : section_ = o
    · subst ho
      rw [update_self, hs, if_pos rfl, ← Multiset.cons_coe, Multiset.map_cons,
        ← Multiset.singleton_add]
      simp only [State.total, State.forwarded]
      abel
    · rw [update_of_ne ho, if_neg fun e => ho e.symm, zero_add]
      rfl
  · intro section_ hr
    obtain ⟨h0, hd⟩ := h.drained section_ hr
    refine ⟨h0, ?_⟩
    simp only [State.spawn] at hd ⊢
    by_cases ho : section_ = o
    · refine .inr ⟨_, Multiset.mem_cons_self _ _, ?_⟩
      simp [Task.Drains, ho]
    · rw [update_of_ne ho]
      refine hd.imp_right (exists_mem_cons (t := .doPendingWork w (.drain o :: actions) after) ?_)
      intro hp
      exact mem_cons_of_mem _ hp

/-! ## 7. The delayed groups -/

theorem owed_pos {s : State n} (h : Inv db files (s.spawn t)) (ht : t.owed = 1) :
    0 < s.activationsRemaining := by
  have howed := h.owed
  rw [State.total_spawn, ht] at howed
  simp only [State.spawn] at howed
  omega

/-- The group is put aside. -/
theorem Inv.delay {s : State n} (h : Inv db files (s.spawn t))
    (hw : t.workers = {w.queue.index}) (hp : t.pending = w.pending) (ho : t.owed = 1)
    (hc : ∀ section_, t.carried section_ = 0) (hf : w.files = files w.queue.index)
    (hs : s.delayProcessing = []) :
    Inv db files ({ s with delayProcessing := [w] }.spawn .countDown) := by
  have hpos := owed_pos h ho
  refine ⟨?_, ?_, h.owed.trans ?_, ?_, forall_mem_cons (fun _ => trivial) h.tasks, h.slots, ?_,
    fun _ => .inl hpos, fun section_ hr => absurd (h.drained section_ hr).1 (by
      simp only [State.spawn]; omega)⟩
  · have hworkers := h.workers
    rw [State.workers_spawn] at hworkers ⊢
    rw [← hworkers, hw]
    simp only [State.workers, State.total, hs, Task.workers, map_cons, map_nil,
      Multiset.coe_nil, Multiset.coe_singleton]
    abel
  · have hpend := h.pending
    rw [State.pending_spawn] at hpend ⊢
    refine hpend.trans (congrArg _ ?_)
    rw [hp]
    simp only [State.pending, State.total, hs, Task.pending, map_cons, map_nil,
      sum_cons, sum_nil]
    abel
  · rw [State.total_spawn, State.total_spawn, ho]
    rfl
  · intro section_
    refine (h.registered section_).trans ?_
    rw [State.total_spawn, State.total_spawn, hc]
    rfl
  · intro w' hw'
    obtain rfl := mem_singleton.mp hw'
    exact hf

theorem Task.Ok.mono {a b : Nat} (hab : b ≤ a) (h : t.Ok files a) : t.Ok files b := by
  cases t with
  | activation g => trivial
  | countDown => trivial
  | activateGroup w file actions shouldDelay => exact h
  | doPendingWork w actions after =>
    obtain ⟨⟨hf, hd⟩, ha⟩ := h
    exact ⟨⟨hf, fun hx => by have := hd hx; omega⟩, fun hx => by have := ha hx; omega⟩
  | popDelayed =>
    have h0 : a = 0 := h
    exact (by omega : b = 0)

/-- The books without a task that holds nothing. -/
theorem Inv.books {s : State n} (h : Inv db files (s.spawn t)) (hw : t.workers = 0)
    (hp : t.pending = 0) (hc : ∀ section_, t.carried section_ = 0) :
    s.workers = Finset.univ.val
      ∧ s.sent.map (fun x => x.2.tag db) = s.processed + s.pending
      ∧ s.activationsRemaining = t.owed + s.total Task.owed
      ∧ ∀ section_, (s.registered section_).map loadSection
        = (s.startStopSections section_ : Multiset _).map loadSection
          + s.total (Task.carried section_) + s.forwarded section_ := by
  refine ⟨?_, ?_, h.owed.trans (State.total_spawn _ s t), ?_⟩
  · have hworkers := h.workers
    rwa [State.workers_spawn, hw, zero_add] at hworkers
  · have hpend := h.pending
    rwa [State.pending_spawn, hp, zero_add] at hpend
  · intro section_
    have hreg := h.registered section_
    rwa [State.total_spawn, hc, zero_add] at hreg

/-- One activation less is to come; whoever counts the last one looks for the delayed group. -/
theorem Inv.count {s : State n} (h : Inv db files (s.spawn .countDown)) :
    Inv db files (exec db files choice s .countDown) := by
  have hpos : 0 < s.activationsRemaining := owed_pos h rfl
  obtain ⟨hworkers, hpend, howed, hreg⟩ := h.books rfl rfl fun _ => rfl
  simp only [Task.owed] at howed
  have hslots : ∀ g w, (s.workerSlots g).worker = some w → w.queue = ⟨g, []⟩
      ∧ (s.workerSlots g).work = [] ∧ w.Ok files (s.activationsRemaining - 1) := by
    intro g w hw
    obtain ⟨h1, h2, h3, h4⟩ := h.slots g w hw
    refine ⟨h1, h2, h3, ?_⟩
    intro hx
    have h0 := h4 hx
    simp only [State.spawn] at h0
    omega
  have hdrained : ∀ section_, ¬ Requested db files s section_ := by
    intro section_ hr
    have h0 := (h.drained section_ hr).1
    simp only [State.spawn] at h0
    omega
  have hold : ∀ t ∈ s.tasks, t.Ok files (s.activationsRemaining - 1) := fun t ht =>
    (h.tasks t (Multiset.mem_cons_of_mem ht)).mono (Nat.sub_le _ _)
  rw [exec]
  split
  · rename_i hzero
    refine ⟨?_, ?_, ?_, ?_, ?_, hslots, h.delayed, ?_, fun section_ hr =>
      absurd hr (hdrained section_)⟩
    · rw [State.workers_spawn]
      simp only [Task.workers, zero_add]
      exact hworkers
    · rw [State.pending_spawn]
      simp only [Task.pending, zero_add]
      exact hpend
    · rw [State.total_spawn]
      simp only [State.spawn, Task.owed, zero_add]
      have htot : s.activationsRemaining - 1 = s.total Task.owed := by omega
      exact htot
    · intro section_
      rw [State.total_spawn]
      simp only [Task.carried, zero_add]
      exact hreg section_
    · intro t ht
      rcases Multiset.mem_cons.mp ht with rfl | ht
      · exact hzero
      · exact hold t ht
    · intro _
      exact .inr ⟨.popDelayed, Multiset.mem_cons_self _ _, trivial⟩
  · rename_i hne
    refine ⟨hworkers, hpend, ?_, hreg, hold, hslots, h.delayed, fun _ =>
      .inl (Nat.pos_of_ne_zero hne), fun section_ hr => absurd hr (hdrained section_)⟩
    have htot : s.activationsRemaining - 1 = s.total Task.owed := by omega
    exact htot

/-- The delayed group is taken. -/
theorem Inv.popDelayed {s : State n} (h : Inv db files (s.spawn .popDelayed)) :
    Inv db files (exec db files choice s .popDelayed) := by
  have hzero : s.activationsRemaining = 0 := ok_of_spawn h
  have hdrained : ∀ section_, Requested db files s section_ → s.activationsRemaining = 0
      ∧ (s.startStopSections section_ = [] ∨ ∃ t ∈ s.tasks, t.Drains section_) := by
    intro section_ hr
    refine (h.drained section_ hr).imp_right fun hs => hs.imp_right ?_
    rintro ⟨t, ht, hd⟩
    rcases Multiset.mem_cons.mp ht with rfl | ht
    · exact absurd hd id
    · exact ⟨t, ht, hd⟩
  obtain ⟨hworkers, hpend, howed, hreg⟩ := h.books rfl rfl fun _ => rfl
  simp only [Task.owed, zero_add] at howed
  have hold : ∀ t ∈ s.tasks, t.Ok files s.activationsRemaining := fun t ht =>
    h.tasks t (Multiset.mem_cons_of_mem ht)
  rw [exec]
  split
  · rename_i hnil
    exact ⟨hworkers, hpend, howed, hreg, hold, h.slots, h.delayed,
      fun hne => absurd hnil hne, hdrained⟩
  · rename_i w rest hcons
    refine ⟨?_, ?_, ?_, ?_, ?_, h.slots, ?_, ?_, ?_⟩
    · rw [State.workers_spawn, ← hworkers]
      simp only [State.workers, State.total, hcons, Task.workers, map_cons,
        ← Multiset.cons_coe, ← Multiset.singleton_add]
      abel
    · rw [State.pending_spawn]
      refine hpend.trans (congrArg _ ?_)
      simp only [State.pending, State.total, hcons, Task.pending, map_cons, sum_cons]
      abel
    · rw [State.total_spawn]
      refine howed.trans ?_
      simp [Task.owed, State.total]
    · intro section_
      rw [State.total_spawn]
      simp only [Task.carried, map_nil, sum_nil, zero_add]
      exact hreg section_
    · intro t ht
      rcases Multiset.mem_cons.mp ht with rfl | ht
      · have hf := h.delayed w (by simp only [State.spawn, hcons]; exact mem_cons_self)
        exact ⟨⟨hf, fun _ => hzero⟩, fun _ => hzero⟩
      · exact hold t ht
    · intro w' hw'
      refine h.delayed w' ?_
      simp only [State.spawn, hcons]
      exact mem_cons_of_mem w hw'
    · intro _
      exact .inr ⟨_, Multiset.mem_cons_self _ _, rfl⟩
    · intro section_ hr
      refine (hdrained section_ hr).imp_right fun hs => hs.imp_right ?_
      rintro ⟨t, ht, hd⟩
      exact ⟨t, Multiset.mem_cons_of_mem ht, hd⟩

/-! ## 8. Steps and runs -/

theorem take_succ_any {l : List FileLayoutState} {i : Nat} {f : FileLayoutState}
    (h : l[i]? = some f) : (l.take (i + 1)).any (· == .syntheticSymbols)
      = ((l.take i).any (· == .syntheticSymbols) || f == .syntheticSymbols) := by
  rw [take_add_one, h, any_append]
  simp

/-- A task that is about to activate a file, or has activated the last one. -/
structure AtFile (files : Fin n → List FileLayoutState) (t : Task n) (w : GroupState n)
    (file : Nat) (shouldDelay : Bool) : Prop where
  workers : t.workers = {w.queue.index}
  pending : t.pending = w.pending
  owed : t.owed = 1
  carried : ∀ section_, t.carried section_ = 0
  pops : ¬ t.Pops
  drains : ∀ section_, ¬ t.Drains section_
  files : w.files = files w.queue.index
  shouldDelay : shouldDelay = (w.files.take file).any (· == .syntheticSymbols)

theorem enterFile_inv {s : State n} (h : Inv db files (s.spawn t))
    (ht : AtFile files t w file shouldDelay)
    (he : (enterFile choice s w file shouldDelay).errors = []) :
    Inv db files (enterFile choice s w file shouldDelay) := by
  unfold enterFile at he ⊢
  cases hfile : w.files[file]? with
  | some f =>
    dsimp only
    refine h.advance ⟨ht.workers.symm, ht.owed.symm, ?_, fun hp => absurd hp ht.pops⟩
      ht.pending.symm (fun section_ => (ht.carried section_).symm)
      fun section_ hd => absurd hd (ht.drains section_)
    intro _
    exact ⟨ht.files, by rw [take_succ_any hfile, ht.shouldDelay]⟩
  | none =>
    rw [hfile] at he
    have hlen : w.files.length ≤ file := List.getElem?_eq_none_iff.mp hfile
    have hall : shouldDelay = w.files.any (· == .syntheticSymbols) := by
      rw [ht.shouldDelay, take_of_length_le hlen]
    dsimp only at he ⊢
    split
    · split
      · rename_i hnil
        exact h.delay ht.workers ht.pending ht.owed ht.carried ht.files hnil
      · rename_i hs hne
        rw [if_pos hs, if_neg hne] at he
        cases he
    · rename_i hs
      refine h.advance ⟨ht.workers.symm, ht.owed.symm, ?_, fun hp => absurd hp ht.pops⟩
        ht.pending.symm (fun section_ => (ht.carried section_).symm)
        fun section_ hd => absurd hd (ht.drains section_)
      intro _
      refine ⟨⟨ht.files, ?_⟩, fun hx => by cases hx⟩
      -- a group that is not put aside has no synthetic symbols
      intro hd
      refine absurd ?_ hs
      rw [hall, List.any_eq_true]
      refine ⟨.syntheticSymbols, ?_, by simp⟩
      rw [ht.files]
      exact hd

theorem execActivate_inv {s : State n} {actions : List (ActivateAction n)}
    (h : Inv db files (s.spawn (.activateGroup w file (action :: actions) shouldDelay)))
    (he : (execActivate db s w file actions shouldDelay action).errors = []) :
    Inv db files (execActivate db s w file actions shouldDelay action) := by
  cases action with
  | push sectionIndex =>
    exact h.push ⟨rfl, rfl, fun hok => hok, fun hp => hp⟩ (pending_push _ _)
      (fun _ => rfl) fun _ hd => hd
  | register o sectionIndex => exact h.register o _
  | send item =>
    simp only [execActivate, LocalWorkQueue.sendWork]
    split
    · rename_i hg
      refine h.push ⟨rfl, rfl, fun hok => hok, fun hp => hp⟩ ?_ (fun _ => rfl) fun _ hd => hd
      refine (pending_push _ _).trans ?_
      rw [← hg]
      rfl
    · exact h.send ⟨rfl, rfl, fun hok => hok, fun hp => hp⟩ rfl (fun _ => rfl) fun _ hd => hd
  | fail error => cases he

theorem execWork_inv {s : State n} {action : WorkAction n}
    (h : Inv db files (s.spawn (.doPendingWork w (action :: actions) after)))
    (he : (execWork db s w actions after action).errors = []) :
    Inv db files (execWork db s w actions after action) := by
  -- everything but the action in front stays to be done
  have hdrains : ∀ {w' : GroupState n} (section_ : OutputSectionId),
      (∀ o, action ≠ .drain o) → (Task.doPendingWork w (action :: actions) after).Drains section_ →
      (Task.doPendingWork w' actions after).Drains section_ := by
    intro w' section_ hne hd
    rcases mem_cons.mp hd with hd | hd
    · exact absurd hd.symm (hne section_)
    · exact hd
  cases action with
  | send item =>
    simp only [execWork, LocalWorkQueue.sendWork]
    have hc : ∀ section_, (Task.doPendingWork w (.send item :: actions) after).carried section_
        = (Task.doPendingWork w actions after).carried section_ := by
      intro section_
      simp [Task.carried, WorkAction.carried]
    split
    · rename_i hg
      refine h.push ⟨rfl, rfl, fun hok => hok, fun hp => hp⟩ ?_ (fun section_ => (hc section_).symm)
        fun section_ => hdrains section_ fun o hx => by cases hx
      refine (pending_push _ _).trans ?_
      rw [← hg]
      rfl
    · refine h.send ⟨rfl, rfl, fun hok => hok, fun hp => hp⟩ rfl ?_
        fun section_ => hdrains section_ fun o hx => by cases hx
      intro section_
      rw [hc, if_neg (by simp), zero_add]
  | drain o =>
    simp only [execWork]
    split
    · rename_i hnil
      refine h.advance ⟨rfl, rfl, fun hok => hok, fun hp => hp⟩ rfl ?_ ?_
      · intro section_
        simp [Task.carried, WorkAction.carried]
      · intro section_ hd
        rcases mem_cons.mp hd with hd | hd
        · cases hd
          exact .inr hnil
        · exact .inl hd
    · rename_i request rest hcons
      exact h.pop hcons
  | forward o request =>
    refine h.send ⟨rfl, rfl, fun hok => hok, fun hp => hp⟩ rfl ?_
      fun section_ => hdrains section_ fun o hx => by cases hx
    intro section_
    simp only [Task.carried, map_cons, sum_cons, carried, some.injEq]
  | fail error =>
    rw [execWork, resume_eq] at he
    cases he

theorem nextItem_inv {s : State n} (h : Inv db files (s.spawn (.doPendingWork w [] after)))
    (he : (nextItem db choice s w after).errors = []) :
    Inv db files (nextItem db choice s w after) := by
  unfold nextItem at he ⊢
  cases hitem : w.queue.localWork.getLast? with
  | some item =>
    rw [hitem] at he
    dsimp only at he ⊢
    cases hfile : w.files[(item.fileId db).file]? with
    | some file => exact h.begin hitem hfile
    | none =>
      rw [hfile] at he
      cases he
  | none =>
    have hl : w.queue.localWork = [] := getLast?_eq_none_iff.mp hitem
    dsimp only
    split
    · rename_i hwork
      exact h.park hl hwork
    · exact h.takeWork hl

/-- **One step of any task keeps the invariant**, if no error comes up. -/
theorem exec_inv {s : State n} (h : Inv db files (s.spawn t))
    (he : (exec db files choice s t).errors = []) : Inv db files (exec db files choice s t) := by
  cases t with
  | activation g =>
    exact enterFile_inv h ⟨rfl, rfl, rfl, fun _ => rfl, fun hp => hp, fun _ hd => hd, rfl,
      by simp⟩ he
  | activateGroup w file actions shouldDelay =>
    cases actions with
    | nil =>
      obtain ⟨hf, hs⟩ := ok_of_spawn h
      exact enterFile_inv h ⟨rfl, rfl, rfl, fun _ => rfl, fun hp => hp, fun _ hd => hd, hf, hs⟩ he
    | cons action actions => exact execActivate_inv h he
  | doPendingWork w actions after =>
    cases actions with
    | nil => exact nextItem_inv h he
    | cons action actions => exact execWork_inv h he
  | countDown => exact h.count
  | popDelayed => exact h.popDelayed

/-- Errors are never taken back. -/
theorem errors_of_exec {s : State n}
    (he : (exec db files choice s t).errors = []) : s.errors = [] := by
  have henter : ∀ {w : GroupState n} {file : Nat} {shouldDelay : Bool},
      (enterFile choice s w file shouldDelay).errors = [] → s.errors = [] := by
    intro w file shouldDelay h
    unfold enterFile at h
    split at h
    · exact h
    · split at h
      · split at h
        · exact h
        · cases h
      · exact h
  have hsend : ∀ {origin : Option OutputSectionId} {item : WorkItem n},
      ((s.logSent origin item).sendWork (item.fileId db) item).errors = s.errors := by
    intro origin item
    exact (sendWork_frame _ _ _).2.2.2.2.2.2
  cases t with
  | activation g => exact henter he
  | activateGroup w file actions shouldDelay =>
    cases actions with
    | nil => exact henter he
    | cons action actions =>
      cases action with
      | push i => exact he
      | register o i => exact he
      | send item =>
        simp only [exec, execActivate, LocalWorkQueue.sendWork] at he
        split at he
        · exact he
        · exact hsend.symm.trans he
      | fail error => cases he
  | doPendingWork w actions after =>
    cases actions with
    | nil =>
      simp only [exec, nextItem] at he
      split at he
      · split at he
        · exact he
        · cases he
      · split at he
        · rw [resume_eq] at he
          exact he
        · exact he
    | cons action actions =>
      cases action with
      | send item =>
        simp only [exec, execWork, LocalWorkQueue.sendWork] at he
        split at he
        · exact he
        · exact hsend.symm.trans he
      | drain o =>
        simp only [exec, execWork] at he
        split at he <;> exact he
      | forward o request =>
        exact (@hsend (some o) (.loadSection request)).symm.trans he
      | fail error =>
        rw [exec, execWork, resume_eq] at he
        cases he
  | countDown =>
    rw [exec] at he
    split at he <;> exact he
  | popDelayed =>
    rw [exec] at he
    split at he <;> exact he

theorem total_initial {M : Type} [AddCommMonoid M] (f : Task n → M) :
    (initial n).total f = ∑ g, f (.activation g) := by
  rw [State.total, initial, Multiset.map_map]
  rfl

theorem initial_inv : Inv db files (initial n) where
  workers := by
    rw [State.workers, total_initial]
    simp only [initial, WorkerSlot.workers, Task.workers, Finset.sum_const_zero, map_nil,
      Multiset.coe_nil, add_zero]
    exact Multiset.sum_map_singleton _
  pending := by
    rw [State.pending, total_initial]
    simp [initial, WorkerSlot.pending, Task.pending]
  owed := by
    rw [total_initial]
    simp [initial, Task.owed]
  registered := by
    intro section_
    rw [total_initial]
    simp [initial, State.forwarded, Task.carried]
  tasks := by
    intro t ht
    dsimp only [initial] at ht
    obtain ⟨g, -, rfl⟩ := Multiset.mem_map.mp ht
    trivial
  slots := fun g w hw => by cases hw
  delayed := fun w hw => absurd hw not_mem_nil
  taken := fun hne => absurd rfl hne
  drained := by
    rintro section_ ⟨g, symbolId, hmem, -⟩
    exact absurd hmem (Multiset.notMem_zero _)

/-- **Every state of a run without errors keeps the books.** -/
theorem reachable_inv {s : State n} (hr : Reachable db files s) (he : s.errors = []) :
    Inv db files s := by
  induction hr with
  | refl => exact initial_inv
  | @tail b c _ hstep ih =>
    obtain ⟨t, rest, choice, htasks, rfl⟩ := hstep
    have hspawn : (b.setTasks rest).spawn t = b := by
      simp only [State.spawn, State.setTasks, ← htasks]
    have hb : (b.setTasks rest).errors = [] := errors_of_exec he
    refine exec_inv ?_ he
    rw [hspawn]
    exact ih hb

/-! ## 9. The end of a run -/

/-- When no task is left, every worker is in its slot. -/
theorem Inv.parked {s : State n} (h : Inv db files s) (ht : s.tasks = 0) (g : Fin n) :
    ∃ w, s.workerSlots g = ⟨[], some w⟩ ∧ w.queue = ⟨g, []⟩ := by
  have hzero : s.activationsRemaining = 0 := by
    rw [h.owed, State.total, ht]
    rfl
  have hdelay : s.delayProcessing = [] := by
    by_contra hne
    rcases h.taken hne with hpos | ⟨t, hmem, -⟩
    · omega
    · rw [ht] at hmem
      exact Multiset.notMem_zero t hmem
  have hworkers := h.workers
  simp only [State.workers, State.total, ht, hdelay, Multiset.map_zero, Multiset.sum_zero,
    map_nil, Multiset.coe_nil, add_zero, zero_add] at hworkers
  have hmem : g ∈ ∑ g', (s.workerSlots g').workers := by
    rw [hworkers]
    exact Finset.mem_univ g
  obtain ⟨g', -, hg'⟩ := Multiset.mem_sum.mp hmem
  cases hw : (s.workerSlots g').worker with
  | none =>
    rw [WorkerSlot.workers, hw] at hg'
    exact absurd hg' (Multiset.notMem_zero g)
  | some w =>
    rw [WorkerSlot.workers, hw] at hg'
    obtain ⟨hq, hwork, -⟩ := h.slots g' w hw
    have hgg : g' = g := by
      have hidx := Multiset.mem_singleton.mp hg'
      rw [hq] at hidx
      exact hidx.symm
    subst hgg
    refine ⟨w, ?_, hq⟩
    rw [← hw, ← hwork]

/-- When no task is left, no item is queued anywhere. -/
theorem Inv.pending_eq_zero {s : State n} (h : Inv db files s) (ht : s.tasks = 0)
    (hd : s.delayProcessing = []) : s.pending = 0 := by
  have hslot : ∀ g, (s.workerSlots g).pending g = 0 := by
    intro g
    obtain ⟨w, hs, hq⟩ := h.parked ht g
    simp [WorkerSlot.pending, GroupState.pending, hs, hq]
  simp [State.pending, State.total, ht, hd, hslot]

/-- Some item that was sent asks for the sections between a `__start_` and a `__stop_` symbol. -/
def Asked (db : SymbolDb n) (files : Fin n → List FileLayoutState) (s : State n)
    (section_ : OutputSectionId) : Prop :=
  ∃ origin symbolId, (origin, loadGlobalSymbol symbolId) ∈ s.sent
    ∧ (files (db.fileIdForSymbol symbolId).group)[(db.fileIdForSymbol symbolId).file]?
      = some .syntheticSymbols
    ∧ db.sectionIdForLoading symbolId = some section_

/-- What is left when a run is over: every group is in its slot and has nothing to do, the items
that were begun are those that were sent, each by its own group, and for a section that was asked
for, the requests sent are those that were registered. -/
structure NothingLost (db : SymbolDb n) (files : Fin n → List FileLayoutState) (s : State n) :
    Prop where
  parked : ∀ g, ∃ w, s.workerSlots g = ⟨[], some w⟩ ∧ w.queue = ⟨g, []⟩
  delayed : s.delayProcessing = []
  processed : s.processed = s.sent.map fun x => x.2.tag db
  startStop : ∀ section_, Asked db files s section_ → s.startStopSections section_ = []
    ∧ s.forwarded section_ = (s.registered section_).map loadSection

theorem Inv.nothingLost {s : State n} (h : Inv db files s) (ht : s.tasks = 0) :
    NothingLost db files s := by
  have hdelay : s.delayProcessing = [] := by
    by_contra hne
    rcases h.taken hne with hpos | ⟨t, hmem, -⟩
    · rw [h.owed, State.total, ht] at hpos
      exact absurd hpos (Nat.lt_irrefl 0)
    · rw [ht] at hmem
      exact Multiset.notMem_zero t hmem
  have hprocessed : s.processed = s.sent.map fun x => x.2.tag db := by
    rw [h.pending, h.pending_eq_zero ht hdelay, add_zero]
  refine ⟨h.parked ht, hdelay, hprocessed, ?_⟩
  intro section_ ⟨origin, symbolId, hsent, hfile, hsection⟩
  have hr : Requested db files s section_ := by
    refine ⟨_, symbolId, ?_, hfile, hsection⟩
    rw [hprocessed]
    exact Multiset.mem_map.mpr ⟨_, hsent, rfl⟩
  have hempty : s.startStopSections section_ = [] := by
    rcases (h.drained section_ hr).2 with hs | ⟨t, hmem, -⟩
    · exact hs
    · rw [ht] at hmem
      exact absurd hmem (Multiset.notMem_zero t)
  refine ⟨hempty, ?_⟩
  have hreg := h.registered section_
  rw [hempty, State.total, ht] at hreg
  simpa using hreg.symm

/-- **The traversal loses nothing.**  In every state of a run without errors each worker is in
exactly one place, in a slot only if it is its own; and when no task is left, all work that was
sent was done once, by the group it was sent to. -/
theorem traversal_loses_nothing (db : SymbolDb n) (files : Fin n → List FileLayoutState)
    (s : State n) (hr : Reachable db files s) (he : s.errors = []) :
    (∀ g, s.workers.count g = 1)
      ∧ (∀ g w, (s.workerSlots g).worker = some w → w.queue.index = g)
      ∧ (s.tasks = 0 → NothingLost db files s) := by
  have h := reachable_inv hr he
  refine ⟨?_, ?_, h.nothingLost⟩
  · intro g
    rw [h.workers]
    exact Multiset.count_eq_one_of_mem Finset.univ.nodup (Finset.mem_univ g)
  · intro g w hw
    rw [(h.slots g w hw).1]

theorem Reachable.exec {s : State n} (h : Reachable db files s) (choice : Choice n)
    (ht : s.tasks = t ::ₘ rest) :
    Reachable db files (exec db files choice (s.setTasks rest) t) :=
  Relation.ReflTransGen.tail h ⟨t, rest, choice, ht, rfl⟩

end Correct

/-- An object and the synthetic symbols, all of them the start of section 5. -/
def twoFiles : Fin 2 → List FileLayoutState :=
  fun g => if g = 0 then [.object] else [.syntheticSymbols]

def startSymbols : SymbolDb 2 := ⟨fun _ => ⟨1, 0⟩, fun _ => .sectionStart 5, 0⟩

def quiet : Choice 2 := ⟨[], [], none⟩

/-- The object registers a section, asks for a symbol and parks; the synthetic symbols are put
aside, find the request and send it. -/
theorem start_symbol_loads_section : ∃ s : State 2, Reachable startSymbols twoFiles s
    ∧ s.tasks = 0 ∧ s.processed = {(0, .loadSection ⟨⟨0, 0⟩, 3⟩), (1, .loadGlobalSymbol 7)}
    ∧ NothingLost startSymbols twoFiles s := by
  have h0 : Reachable startSymbols twoFiles 
      ((initial 2).setTasks (.activation 0 ::ₘ .activation 1 ::ₘ 0)) :=
    Relation.ReflTransGen.refl
  have h := h0.exec ⟨[.register 5 3, .send (.loadGlobalSymbol 7)], [], none⟩
    (by dsimp only [State.setTasks])
  simp [exec, enterFile, activate, twoFiles, -Multiset.cons_zero] at h
  -- the other nineteen steps, each by the task that was started last
  iterate 19
    replace h := h.exec quiet (by dsimp only [State.spawn, State.setTasks])
    simp [exec, enterFile, activate, execActivate, nextItem, execWork, doWork, anyWork,
      LocalWorkQueue.sendWork, State.sendWork, State.logSent, State.setSlot, State.setTasks,
      State.resume, State.spawn, fileId, SymbolDb.sectionIdForLoading, startSymbols,
      twoFiles, quiet, initial, -Multiset.cons_zero] at h
  exact ⟨_, h, rfl, rfl, (traversal_loses_nothing _ _ _ h rfl).2.2 rfl⟩

end Srs.Layout
