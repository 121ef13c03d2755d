/-
# The graph traversal that finds the required sections

`find_required_sections` runs one task per group.  The task activates the files of its group,
which fills the group's own queue and sends work to others, and then works until the queue is
empty; it leaves the group in its slot, and whoever sends it work later takes it out again and
starts a task for it.  The group with the synthetic symbols is put aside until all groups are
activated, because it reads the `start_stop_sections` that activation fills.

A file's handlers are only modelled as far as they use the protocol: which work they send and
whether they fail depends on the input and on symbol flags that other tasks change at the same
time, so it is a `Choice` that every step may take anew.  The handler of the synthetic symbols is
the exception: what it sends was registered by others, and it is modelled as it is.

The state has the shared data, the bag of tasks with what each of them owns, and two histories
that no task reads: the work that was sent, and the work that was begun.  `exec` is one step of
one task; everything done under one lock is one step.
-/
import Mathlib.Data.UInt

namespace Srs.Layout

/-! ## 1. Work items -/

abbrev SymbolId := Nat

abbrev OutputSectionId := Nat

structure FileId (numGroups : Nat) where
  group : Fin numGroups
  file : Nat
  deriving DecidableEq

structure SectionLoadRequest (numGroups : Nat) where
  fileId : FileId numGroups
  sectionIndex : Nat
  deriving DecidableEq

inductive WorkItem (numGroups : Nat) where
  | loadGlobalSymbol (symbolId : SymbolId)
  | copyRelocateSymbol (symbolId : SymbolId)
  | loadSection (request : SectionLoadRequest numGroups)
  | exportDynamic (symbolId : SymbolId)
  deriving DecidableEq

/-- `SymbolPlacement` without the values of absolute and redirected symbols. -/
inductive SymbolPlacement where
  | undefined
  | forceUndefined
  | sectionStart (section_ : OutputSectionId)
  | sectionEnd (section_ : OutputSectionId)
  | sectionGroupStart (section_ : OutputSectionId)
  | sectionGroupEnd (section_ : OutputSectionId)
  | defsymAbsolute
  | redirect
  | loadBaseAddress
  | segmentStart
  deriving DecidableEq

/-- What the handlers look up: the file that defines a symbol, the placement of a synthetic
symbol, and the id of the text section. -/
structure SymbolDb (numGroups : Nat) where
  fileIdForSymbol : SymbolId → FileId numGroups
  placement : SymbolId → SymbolPlacement
  text : OutputSectionId

/-- `section_id_for_loading` of the definition of a synthetic symbol. -/
def SymbolDb.sectionIdForLoading {n : Nat} (db : SymbolDb n) (symbolId : SymbolId) :
    Option OutputSectionId :=
  match db.placement symbolId with
  | .undefined | .forceUndefined | .defsymAbsolute | .redirect => none
  | .sectionStart i | .sectionGroupStart i | .sectionEnd i | .sectionGroupEnd i => some i
  | .loadBaseAddress | .segmentStart => some db.text

def WorkItem.fileId {n : Nat} (db : SymbolDb n) : WorkItem n → FileId n
  | .loadGlobalSymbol s | .copyRelocateSymbol s => db.fileIdForSymbol s
  | .loadSection s => s.fileId
  | .exportDynamic s => db.fileIdForSymbol s

/-! ## 2. Groups, tasks and shared state -/

/-- The kinds of files; their own state takes no part in the protocol. -/
inductive FileLayoutState where
  | prelude
  | object
  | dynamic
  | syntheticSymbols
  | epilogue
  | notLoaded
  | linkerScript
  deriving DecidableEq

structure LocalWorkQueue (numGroups : Nat) where
  index : Fin numGroups
  localWork : List (WorkItem numGroups)
  deriving DecidableEq

structure GroupState (numGroups : Nat) where
  queue : LocalWorkQueue numGroups
  files : List FileLayoutState
  deriving DecidableEq

structure WorkerSlot (numGroups : Nat) where
  work : List (WorkItem numGroups)
  worker : Option (GroupState numGroups)

/-- What the activation of a file does next. -/
inductive ActivateAction (numGroups : Nat) where
  /-- queues one of the file's own sections -/
  | push (sectionIndex : Nat)
  /-- registers one of the file's own sections for `__start_` and `__stop_` symbols -/
  | register (section_ : OutputSectionId) (sectionIndex : Nat)
  | send (item : WorkItem numGroups)
  | fail (error : String)

/-- What the work on an item does next. -/
inductive WorkAction (numGroups : Nat) where
  | send (item : WorkItem numGroups)
  /-- the loop that pops the requests for a section -/
  | drain (section_ : OutputSectionId)
  /-- sends a request that was popped -/
  | forward (section_ : OutputSectionId) (request : SectionLoadRequest numGroups)
  | fail (error : String)

/-- What a thread does after `do_pending_work`. -/
inductive After where
  /-- it was called for a group that was just activated -/
  | countDown
  /-- it was called in the loop over the delayed groups -/
  | popDelayed
  /-- it was spawned by `send_work` -/
  | done
  deriving DecidableEq

inductive Task (numGroups : Nat) where
  /-- a spawned `activate_group` that has not started yet -/
  | activation (group : Fin numGroups)
  /-- `activate_group` at the file with this index -/
  | activateGroup (group : GroupState numGroups) (file : Nat)
      (actions : List (ActivateAction numGroups)) (shouldDelay : Bool)
  | doPendingWork (group : GroupState numGroups) (actions : List (WorkAction numGroups))
      (after : After)
  | countDown
  | popDelayed

structure State (numGroups : Nat) where
  workerSlots : Fin numGroups → WorkerSlot numGroups
  startStopSections : OutputSectionId → List (SectionLoadRequest numGroups)
  activationsRemaining : Nat
  delayProcessing : List (GroupState numGroups)
  errors : List String
  tasks : Multiset (Task numGroups)
  /-- All work that was sent; requests for `__start_` and `__stop_` symbols with their section. -/
  sent : Multiset (Option OutputSectionId × WorkItem numGroups)
  /-- All work that was begun, with the group that did it. -/
  processed : Multiset (Fin numGroups × WorkItem numGroups)
  /-- All requests that were registered for a section. -/
  registered : OutputSectionId → Multiset (SectionLoadRequest numGroups)

/-- What the handlers do in one step, as far as it depends on the input or on other tasks. -/
structure Choice (numGroups : Nat) where
  activation : List (ActivateAction numGroups)
  work : List (WorkItem numGroups)
  error : Option String

/-! ## 3. Sending work -/

section Exec

variable {n : Nat}

namespace State

def setTasks (s : State n) (tasks : Multiset (Task n)) : State n := { s with tasks := tasks }

def spawn (s : State n) (t : Task n) : State n := { s with tasks := t ::ₘ s.tasks }

def reportError (s : State n) (error : String) : State n := { s with errors := error :: s.errors }

def logSent (s : State n) (origin : Option OutputSectionId) (item : WorkItem n) : State n :=
  { s with sent := (origin, item) ::ₘ s.sent }

def setSlot (s : State n) (group : Fin n) (slot : WorkerSlot n) : State n :=
  { s with workerSlots := Function.update s.workerSlots group slot }

/-- `GraphResources::send_work`: pushes to the slot and starts the worker that is parked there. -/
def sendWork (s : State n) (fileId : FileId n) (work : WorkItem n) : State n :=
  let slot := s.workerSlots fileId.group
  let s := s.setSlot fileId.group ⟨slot.work ++ [work], none⟩
  match slot.worker with
  | some worker => s.spawn (.doPendingWork worker [] .done)
  | none => s

/-- Goes on after `do_pending_work`. -/
def resume (s : State n) : After → State n
  | .countDown => s.spawn .countDown
  | .popDelayed => s.spawn .popDelayed
  | .done => s

end State

/-- `self.local_work.push(work)` -/
def GroupState.push (group : GroupState n) (work : WorkItem n) : GroupState n :=
  { group with queue := ⟨group.queue.index, group.queue.localWork ++ [work]⟩ }

/-- `LocalWorkQueue::send_work`: work for the own group is queued, other work is sent. -/
def LocalWorkQueue.sendWork (group : GroupState n) (s : State n) (fileId : FileId n)
    (work : WorkItem n) : GroupState n × State n :=
  if fileId.group = group.queue.index then (group.push work, s)
  else (group, s.sendWork fileId work)

/-! ## 4. Handlers -/

/-- The calls of the protocol that `activate` makes for a file. -/
def activate (choice : Choice n) : FileLayoutState → List (ActivateAction n)
  | .object | .prelude | .dynamic =>
    choice.activation ++ (choice.error.map ActivateAction.fail).toList
  | .linkerScript => (choice.error.map ActivateAction.fail).toList
  | .epilogue | .notLoaded | .syntheticSymbols => []

/-- A handler that sends some work and may fail. -/
def anyWork (choice : Choice n) : List (WorkAction n) :=
  choice.work.map WorkAction.send ++ (choice.error.map WorkAction.fail).toList

/-- The calls of the protocol that `do_work` makes for an item. -/
def doWork (db : SymbolDb n) (choice : Choice n) (file : FileLayoutState) :
    WorkItem n → List (WorkAction n)
  | .loadGlobalSymbol symbolId =>
    match file with
    | .object | .prelude | .dynamic => anyWork choice
    | .linkerScript | .notLoaded => []
    | .syntheticSymbols =>
      match db.sectionIdForLoading symbolId with
      | some outputSectionId => [.drain outputSectionId]
      | none => []
    | .epilogue => [.fail "internal error: entered unreachable code"]
  | .copyRelocateSymbol _ =>
    match file with
    | .dynamic => anyWork choice
    | _ => [.fail "Internal error: ExportCopyRelocation sent to non-dynamic object"]
  | .loadSection _ =>
    match file with
    | .object => anyWork choice
    | _ => [.fail "Request to load section from non-object"]
  | .exportDynamic _ =>
    match file with
    | .object => anyWork choice
    | _ => []

/-! ## 5. One step of a task -/

/-- The next round of the loop over the files of a group, and what follows the loop. -/
def enterFile (choice : Choice n) (s : State n) (group : GroupState n) (file : Nat)
    (shouldDelay : Bool) : State n :=
  match group.files[file]? with
  | some f =>
    s.spawn (.activateGroup group file (activate choice f)
      (shouldDelay || f == .syntheticSymbols))
  | none =>
    if shouldDelay then
      -- the queue has room for one group
      if s.delayProcessing = [] then { s with delayProcessing := [group] }.spawn .countDown
      else s.reportError "called `Result::unwrap()` on an `Err` value"
    else s.spawn (.doPendingWork group [] .countDown)

/-- One action of an activation. -/
def execActivate (db : SymbolDb n) (s : State n) (group : GroupState n) (file : Nat)
    (actions : List (ActivateAction n)) (shouldDelay : Bool) : ActivateAction n → State n
  | .push sectionIndex =>
    let item := WorkItem.loadSection ⟨⟨group.queue.index, file⟩, sectionIndex⟩
    (s.logSent none item).spawn (.activateGroup (group.push item) file actions shouldDelay)
  | .register outputSectionId sectionIndex =>
    let request : SectionLoadRequest n := ⟨⟨group.queue.index, file⟩, sectionIndex⟩
    { s with
      startStopSections := Function.update s.startStopSections outputSectionId
        (s.startStopSections outputSectionId ++ [request])
      registered := Function.update s.registered outputSectionId
        (request ::ₘ s.registered outputSectionId) }.spawn
      (.activateGroup group file actions shouldDelay)
  | .send item =>
    let (group, s) := LocalWorkQueue.sendWork group (s.logSent none item) (item.fileId db) item
    s.spawn (.activateGroup group file actions shouldDelay)
  | .fail error =>
    -- the other files of the group are activated all the same
    (s.reportError error).spawn (.activateGroup group file [] shouldDelay)

/-- One action of the work on an item. -/
def execWork (db : SymbolDb n) (s : State n) (group : GroupState n)
    (actions : List (WorkAction n)) (after : After) : WorkAction n → State n
  | .send item =>
    let (group, s) := LocalWorkQueue.sendWork group (s.logSent none item) (item.fileId db) item
    s.spawn (.doPendingWork group actions after)
  | .drain outputSectionId =>
    match s.startStopSections outputSectionId with
    | [] => s.spawn (.doPendingWork group actions after)
    | request :: rest =>
      { s with
        startStopSections := Function.update s.startStopSections outputSectionId rest }.spawn
        (.doPendingWork group (.forward outputSectionId request :: .drain outputSectionId
          :: actions) after)
  | .forward outputSectionId request =>
    ((s.logSent (some outputSectionId) (.loadSection request)).sendWork request.fileId
      (.loadSection request)).spawn (.doPendingWork group actions after)
  | .fail error => (s.reportError error).resume after

/-- `do_pending_work` between two items. -/
def nextItem (db : SymbolDb n) (choice : Choice n) (s : State n) (group : GroupState n)
    (after : After) : State n :=
  match group.queue.localWork.getLast? with
  | some item =>
    let s := { s with processed := (group.queue.index, item) ::ₘ s.processed }
    let group := { group with
      queue := ⟨group.queue.index, group.queue.localWork.dropLast⟩ }
    match group.files[(item.fileId db).file]? with
    | some file => s.spawn (.doPendingWork group (doWork db choice file item) after)
    | none => s.reportError "index out of bounds"
  | none =>
    let slot := s.workerSlots group.queue.index
    if slot.work = [] then
      (s.setSlot group.queue.index { slot with worker := some group }).resume after
    else
      (s.setSlot group.queue.index { slot with work := group.queue.localWork }).spawn
        (.doPendingWork { group with queue := ⟨group.queue.index, slot.work⟩ } [] after)

/-- One step of a task that is no longer in the bag; it is put back unless it is done. -/
def exec (db : SymbolDb n) (files : Fin n → List FileLayoutState) (choice : Choice n)
    (s : State n) : Task n → State n
  | .activation group => enterFile choice s ⟨⟨group, []⟩, files group⟩ 0 false
  | .activateGroup group file [] shouldDelay => enterFile choice s group (file + 1) shouldDelay
  | .activateGroup group file (action :: actions) shouldDelay =>
    execActivate db s group file actions shouldDelay action
  | .doPendingWork group [] after => nextItem db choice s group after
  | .doPendingWork group (action :: actions) after => execWork db s group actions after action
  | .countDown =>
    let remaining := s.activationsRemaining - 1
    let s := { s with activationsRemaining := remaining }
    if remaining = 0 then s.spawn .popDelayed else s
  | .popDelayed =>
    match s.delayProcessing with
    | [] => s
    | group :: rest =>
      { s with delayProcessing := rest }.spawn (.doPendingWork group [] .popDelayed)

/-- Any task may take the next step. -/
def Step (db : SymbolDb n) (files : Fin n → List FileLayoutState) (s s' : State n) : Prop :=
  ∃ t rest choice, s.tasks = t ::ₘ rest ∧ s' = exec db files choice (s.setTasks rest) t

/-- The state in which `queue_initial_group_processing` has spawned a task for every group. -/
def initial (n : Nat) : State n where
  workerSlots _ := ⟨[], none⟩
  startStopSections _ := []
  activationsRemaining := n
  delayProcessing := []
  errors := []
  tasks := Finset.univ.val.map Task.activation
  sent := 0
  processed := 0
  registered _ := 0

/-- The states a run from the start can come to. -/
def Reachable (db : SymbolDb n) (files : Fin n → List FileLayoutState) : State n → Prop :=
  Relation.ReflTransGen (Step db files) (initial n)

end Exec

end Srs.Layout
