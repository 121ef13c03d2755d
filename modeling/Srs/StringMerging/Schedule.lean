/-
# The tasks that merge a section

`add_input_sections` runs two kinds of tasks in a scope.  A task that was spawned for input takes
a group off the queue, splits it, and hands each bucket's strings over through the slot for the
group and the bucket.  A task that works with a bucket takes the strings from the slot of the
next group, adds them and goes on to the group after it; if the strings are not there yet, it
leaves the bucket in the slot, and the input task that brings them starts a task for it again.

The state is everything the tasks share (`State`), and the bag of tasks with what each of them
owns (`Task`).  `exec` is one step of one task: what a task does between two accesses to shared
data is local and belongs to the step.  The slot exchanges are atomic because they are made
under the slot's lock; the load and the exchange of `try_reserve` are two steps.  `Step` lets any
task go next, so a run of `Step` is any order in which the threads can come to run them.

The pool's vectors only lend their storage (`reuse_vec` empties them) and are not modelled; the
count of those that are available is, because it decides when input tasks are spawned.
-/
import Srs.StringMerging.Buckets

namespace Srs.StringMerging

/-! ## 1. Tasks and shared state -/

/-- What the slot for a group and a bucket holds. -/
inductive StringsSlot where
  | empty
  | waitingForStrings (bucket : MergeStringsSectionBucket)
  | strings (strings : List StringToMerge)

/-- Where `try_spawn_input_processing` is: before the load, or with the value it loaded. -/
inductive SpawnPhase where
  | load
  | compareExchange (available : Nat)

/-- Where `work_with_bucket` is in its loop. -/
inductive BucketPhase where
  /-- before it looks at the slot of the next group -/
  | take
  | process (strings : List StringToMerge)
  | returnStrings
  | spawn (phase : SpawnPhase)

inductive Task where
  /-- the scope's own call of `try_spawn_input_processing` -/
  | spawner (phase : SpawnPhase)
  /-- an input task with its reservation, before it looks at the queue -/
  | input
  /-- an input task that found the queue empty -/
  | unreserve
  /-- an input task that has split its group and handed over the strings of `done` buckets -/
  | handOver (group done : Nat) (strings : StringVecs)
  | bucket (bucket : MergeStringsSectionBucket) (phase : BucketPhase)

structure State where
  unprocessed : List SectionGroup
  slots : Nat → Fin mergeStringBuckets → StringsSlot
  finishedShards : Nat → Option Shard
  finishedBuckets : List MergeStringsSectionBucket
  store : OffsetStore
  /-- the first error; the queue holds one -/
  errors : Option String
  /-- the number of vectors of the pool that are not reserved -/
  available : Nat
  tasks : Multiset Task

namespace State

def spawn (s : State) (t : Task) : State := { s with tasks := t ::ₘ s.tasks }

/-- `errors.push`: only the first error is kept. -/
def fail (s : State) (error : String) : State := { s with errors := s.errors.or (some error) }

/-- Replaces the contents of a slot. -/
def setSlot (s : State) (group : Nat) (bucket : Fin mergeStringBuckets) (slot : StringsSlot) :
    State :=
  { s with slots := Function.update s.slots group (Function.update (s.slots group) bucket slot) }

end State

/-! ## 2. One step of a task -/

/-- A step of `try_spawn_input_processing`; no phase when it returns. -/
def spawnStep (s : State) : SpawnPhase → State × Option SpawnPhase
  | .load =>
    if s.available < mergeStringBuckets then (s, none)
    else (s, some (.compareExchange s.available))
  | .compareExchange available =>
    if s.available = available then
      ({ s with available := s.available - mergeStringBuckets }.spawn .input, some .load)
    else (s, none)

/-- The cells of the offsets a shard accepted, before the output offsets are known. -/
def OffsetStore.claim (store : OffsetStore) (keys : List Nat) : OffsetStore :=
  { store with
    stringOffsets := fun key => if key ∈ keys then some ⟨0⟩ else store.stringOffsets key }

section Exec

variable (hashBytes : Bytes → UInt64) (room : Shard → Nat → Bool) (numInputGroups : Nat)

/-- One step of a task that is no longer in the bag; it is put back unless it is done. -/
def exec (s : State) : Task → State
  | .spawner phase =>
    match spawnStep s phase with
    | (s, some phase) => s.spawn (.spawner phase)
    | (s, none) => s
  | .input =>
    match s.unprocessed with
    | [] => s.spawn .unreserve
    | group :: rest =>
      let s := { s with unprocessed := rest }
      match splitGroup hashBytes room group with
      | .error error => s.fail error
      | .ok split =>
        { s with
          finishedShards := Function.update s.finishedShards group.index (some split.shard)
          store := s.store.claim split.shard.keys }.spawn (.handOver group.index 0 split.buckets)
  | .unreserve => { s with available := s.available + mergeStringBuckets }
  | .handOver group done strings =>
    if h : done < mergeStringBuckets then
      let s' := (s.setSlot group ⟨done, h⟩ (.strings (strings ⟨done, h⟩))).spawn
        (.handOver group (done + 1) strings)
      match s.slots group ⟨done, h⟩ with
      | .waitingForStrings bucket => s'.spawn (.bucket bucket .take)
      | _ => s'
    else s
  | .bucket bucket .take =>
    if bucket.nextInputGroupIndex < numInputGroups then
      match s.slots bucket.nextInputGroupIndex bucket.index with
      | .strings strings =>
        (s.setSlot bucket.nextInputGroupIndex bucket.index .empty).spawn
          (.bucket bucket (.process strings))
      | _ => s.setSlot bucket.nextInputGroupIndex bucket.index (.waitingForStrings bucket)
    else { s with finishedBuckets := s.finishedBuckets ++ [bucket] }
  | .bucket bucket (.process strings) =>
    match processSplitOutput bucket s.store strings with
    | .error error => s.fail error
    | .ok (bucket, store) => { s with store := store }.spawn (.bucket bucket .returnStrings)
  | .bucket bucket .returnStrings =>
    { s with available := s.available + 1 }.spawn (.bucket bucket (.spawn .load))
  | .bucket bucket (.spawn phase) =>
    match spawnStep s phase with
    | (s, some phase) => s.spawn (.bucket bucket (.spawn phase))
    | (s, none) =>
      s.spawn (.bucket { bucket with nextInputGroupIndex := bucket.nextInputGroupIndex + 1 } .take)

/-- Any task may take the next step. -/
def Step (s s' : State) : Prop :=
  ∃ t rest, s.tasks = t ::ₘ rest ∧ s' = exec hashBytes room numInputGroups { s with tasks := rest } t

end Exec

/-- `create_split_resources`: the groups are queued, and the buckets wait for the first group.
`capacity` is the number of vectors in the pool. -/
def initial (groups : List SectionGroup) (capacity : Nat) : State where
  unprocessed := groups
  slots group bucket := if group = 0 then .waitingForStrings (.new bucket) else .empty
  finishedShards _ := none
  finishedBuckets := []
  store := ⟨fun _ => none, []⟩
  errors := none
  available := capacity
  tasks := {.spawner .load}

/-- The states a run from the start can come to. -/
def Reachable (hashBytes : Bytes → UInt64) (room : Shard → Nat → Bool)
    (groups : List SectionGroup) (capacity : Nat) (s : State) : Prop :=
  Relation.ReflTransGen (Step hashBytes room groups.length) (initial groups capacity) s

end Srs.StringMerging
