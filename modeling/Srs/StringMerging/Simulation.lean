/-
# The tasks follow the machine

What the tasks of `Schedule` have done so far determines the state they share: which strings a
bucket holds depends only on how many groups it has added, because it adds them in order; what a
slot holds depends only on whether its strings were handed over and taken; and an output offset
that is stored is already the final one.  `Follows` says what state belongs to a `Progress`, and
`exec_follows` that a step of a task is the step of the machine.

So the order in which the tasks run decides when something happens, and never what.
-/
import Mathlib.Tactic.Abel
import Mathlib.Algebra.Order.Group.Multiset
import Srs.StringMerging.Progress

namespace Srs.StringMerging

open List Function MergeStringsSectionBucket

/-! ## 1. The strings of the groups -/

/-- The linear input offset a string's output offset is stored for. -/
def OffsetOut.key : OffsetOut → Nat
  | .inShard key => key
  | .overflow key => key

/-- The strings the groups are split into. -/
structure Workload (hashBytes : Bytes → UInt64) (room : Shard → Nat → Bool)
    (groups : List SectionGroup) where
  items : Nat → List StringToMerge
  shard : Nat → Shard
  index : ∀ (g : Nat) (h : g < groups.length), groups[g].index = g
  split : ∀ (g : Nat) (h : g < groups.length), splitGroup hashBytes room groups[g]
    = .ok ⟨fun b => (items g).filter fun x => bucketOf x.string.hash = b, shard g⟩
  accepted : ∀ g key, key ∈ (shard g).keys ↔ ∃ x ∈ items g, x.offsetOut = .inShard key
  /-- no two strings start at the same input offset -/
  distinct : ∀ g g' x y, x ∈ items g → y ∈ items g' → x.offsetOut.key = y.offsetOut.key →
    g = g' ∧ x = y

namespace Workload

variable {hashBytes : Bytes → UInt64} {room : Shard → Nat → Bool} {groups : List SectionGroup}
  (W : Workload hashBytes room groups)

/-- The strings of a group that go into a bucket. -/
def vec (g : Nat) (b : Fin mergeStringBuckets) : List StringToMerge :=
  (W.items g).filter fun x => bucketOf x.string.hash = b

/-- The strings of the first `k` groups that go into a bucket. -/
def upTo (b : Fin mergeStringBuckets) (k : Nat) : List PreHashed :=
  (List.range k).flatMap fun g => (W.vec g b).map (·.string)

/-- A bucket with the strings of the first `k` groups. -/
def bucketAt (b : Fin mergeStringBuckets) (k next : Nat) : MergeStringsSectionBucket :=
  { (new b).addAll (W.upTo b k) with nextInputGroupIndex := next }

/-- The words of the finished bucket. -/
def table (b : Fin mergeStringBuckets) : List Bytes := (W.bucketAt b groups.length 0).words

/-- The place of a string in the output. -/
def placeOf (x : StringToMerge) : BucketOffset :=
  placeIn (bucketOf x.string.hash) (W.table (bucketOf x.string.hash)) x.string.value.bytes

/-- All buckets are small enough for the offsets that are stored. -/
def Fits : Prop := ∀ b, (W.table b).flatten.length < 2 ^ 28

/-- All strings start at offsets that can be stored; the last one of a bucket may go beyond. -/
def StringsFit : Prop := ∀ b, StartsFit (W.table b)

/-! ## 2. The state that belongs to a progress -/

/-- What the slot for a group and a bucket holds. -/
def slotOf (p : Progress) (g : Nat) (b : Fin mergeStringBuckets) : StringsSlot :=
  if p.Handed g b then
    if (p.place b).taken groups.length ≤ g then .strings (W.vec g b) else .empty
  else match p.place b with
    | .parked next => if next = g then .waitingForStrings (W.bucketAt b g g) else .empty
    | _ => .empty

/-- The finished buckets. -/
def finishedOf (b : Fin mergeStringBuckets) : Place → Multiset MergeStringsSectionBucket
  | .finished => {W.bucketAt b groups.length groups.length}
  | _ => 0

/-- The task that works with a bucket. -/
def placeTasks (b : Fin mergeStringBuckets) : Place → Multiset Task
  | .running next .take => {.bucket (W.bucketAt b next next) .take}
  | .running next .process => {.bucket (W.bucketAt b next next) (.process (W.vec next b))}
  | .running next .returnStrings => {.bucket (W.bucketAt b (next + 1) next) .returnStrings}
  | .running next (.spawn phase) => {.bucket (W.bucketAt b (next + 1) next) (.spawn phase)}
  | _ => 0

/-- The task that hands over a group. -/
def groupTasks (g done : Nat) : Multiset Task :=
  if done ≤ mergeStringBuckets then {.handOver g done (W.vec g)} else 0

def spawnerTasks : Option SpawnPhase → Multiset Task
  | none => 0
  | some phase => {.spawner phase}

/-- The tasks that are left. -/
def tasksOf (p : Progress) : Multiset Task :=
  spawnerTasks p.spawner + Multiset.replicate p.inputs .input
    + Multiset.replicate p.idle .unreserve
    + ∑ g ∈ Finset.range p.popped, W.groupTasks g (p.handed g)
    + ∑ b, W.placeTasks b (p.place b)

/-- What is stored when `popped` groups were split and each bucket has added the strings of the
first `processed` groups. -/
structure Stores (popped : Nat) (processed : Fin mergeStringBuckets → Nat) (store : OffsetStore) :
    Prop where
  cell : ∀ g x key, g < popped → x ∈ W.items g → x.offsetOut = .inShard key →
    store.stringOffsets key
      = some (if g < processed (bucketOf x.string.hash) then W.placeOf x else ⟨0⟩)
  no_cell : ∀ key, (∀ g x, g < popped → x ∈ W.items g → x.offsetOut ≠ .inShard key) →
    store.stringOffsets key = none
  overflow : ∀ key offset, (key, offset) ∈ store.overflowed ↔
    ∃ g x, g < processed (bucketOf x.string.hash) ∧ x ∈ W.items g ∧ x.offsetOut = .overflow key
      ∧ offset = W.placeOf x

/-- **The state that belongs to a progress.** -/
structure Follows (p : Progress) (s : State) : Prop where
  unprocessed : s.unprocessed = groups.drop p.popped
  slots : ∀ g b, s.slots g b = W.slotOf p g b
  shards : ∀ g, s.finishedShards g = if g < p.popped then some (W.shard g) else none
  finished : (s.finishedBuckets : Multiset MergeStringsSectionBucket)
    = ∑ b, W.finishedOf b (p.place b)
  stores : W.Stores p.popped (fun b => (p.place b).processed groups.length) s.store
  errors : s.errors = none
  available : s.available = p.available
  tasks : s.tasks = W.tasksOf p

/-! ## 3. The bag of tasks -/

section Tasks

variable {p : Progress}

theorem placeTasks_finished (b : Fin mergeStringBuckets) : W.placeTasks b .finished = 0 := rfl

theorem groupTasks_done (g : Nat) : W.groupTasks g (mergeStringBuckets + 1) = 0 := by
  simp [groupTasks]

/-- The task of one bucket, and the other tasks. -/
theorem tasksOf_setPlace (b : Fin mergeStringBuckets) (x : Place) :
    W.tasksOf (p.setPlace b x) = W.placeTasks b x + W.tasksOf (p.setPlace b .finished) := by
  simp only [tasksOf, Progress.setPlace, Bag.sum_update (Finset.mem_univ b), placeTasks_finished]
  abel

theorem tasksOf_place (b : Fin mergeStringBuckets) :
    W.tasksOf p = W.placeTasks b (p.place b) + W.tasksOf (p.setPlace b .finished) := by
  have h := W.tasksOf_setPlace (p := p) b (p.place b)
  rwa [Progress.setPlace, update_eq_self] at h

/-- The task of one group, and the other tasks. -/
theorem tasksOf_setHanded {g : Nat} (hg : g < p.popped) (k : Nat) :
    W.tasksOf { p with handed := update p.handed g k }
      = W.groupTasks g k
        + W.tasksOf { p with handed := update p.handed g (mergeStringBuckets + 1) } := by
  simp only [tasksOf, Bag.sum_update (Finset.mem_range.mpr hg), groupTasks_done]
  abel

theorem tasksOf_group {g : Nat} (hg : g < p.popped) :
    W.tasksOf p = W.groupTasks g (p.handed g)
      + W.tasksOf { p with handed := update p.handed g (mergeStringBuckets + 1) } := by
  have h := W.tasksOf_setHanded hg (p.handed g)
  rwa [update_eq_self] at h

theorem tasksOf_pop :
    W.tasksOf { p with
        inputs := p.inputs - 1
        popped := p.popped + 1
        handed := update p.handed p.popped 0 }
      = .handOver p.popped 0 (W.vec p.popped) ::ₘ W.tasksOf { p with inputs := p.inputs - 1 } := by
  have hsum : ∑ g ∈ Finset.range p.popped, W.groupTasks g (update p.handed p.popped 0 g)
      = ∑ g ∈ Finset.range p.popped, W.groupTasks g (p.handed g) := by
    refine Finset.sum_congr rfl ?_
    intro g hg
    have := Finset.mem_range.mp hg
    rw [update_of_ne (by omega)]
  simp only [tasksOf, Finset.sum_range_succ, hsum, update_self]
  simp only [groupTasks, Nat.zero_le, if_true, ← Multiset.singleton_add]
  abel

theorem tasksOf_spawner :
    W.tasksOf p = spawnerTasks p.spawner + W.tasksOf { p with spawner := none } := by
  simp only [tasksOf, spawnerTasks]
  abel

theorem tasksOf_input (h : 0 < p.inputs) :
    W.tasksOf p = .input ::ₘ W.tasksOf { p with inputs := p.inputs - 1 } := by
  obtain ⟨k, hk⟩ : ∃ k, p.inputs = k + 1 := ⟨p.inputs - 1, by omega⟩
  simp only [tasksOf, hk, Nat.add_sub_cancel, Multiset.replicate_succ, ← Multiset.singleton_add]
  abel

theorem tasksOf_unreserve (h : 0 < p.idle) :
    W.tasksOf p = .unreserve ::ₘ W.tasksOf { p with idle := p.idle - 1 } := by
  obtain ⟨k, hk⟩ : ∃ k, p.idle = k + 1 := ⟨p.idle - 1, by omega⟩
  simp only [tasksOf, hk, Nat.add_sub_cancel, Multiset.replicate_succ, ← Multiset.singleton_add]
  abel

/-- The task an actor stands for. -/
def IsTask (p : Progress) : Actor → Task → Prop
  | .spawner, t => spawnerTasks p.spawner = {t}
  | .input, t => 0 < p.inputs ∧ t = .input
  | .unreserve, t => 0 < p.idle ∧ t = .unreserve
  | .group g, t => g < p.popped ∧ W.groupTasks g (p.handed g) = {t}
  | .bucket b, t => W.placeTasks b (p.place b) = {t}

/-- Every task is the task of an actor that can move. -/
theorem exists_isTask {t : Task} (h : t ∈ W.tasksOf p) : ∃ a, p.Enabled a ∧ W.IsTask p a t := by
  simp only [tasksOf, Multiset.mem_add, Multiset.mem_replicate, Multiset.mem_sum] at h
  rcases h with (((h | ⟨hn, rfl⟩) | ⟨hn, rfl⟩) | ⟨g, hg, h⟩) | ⟨b, -, h⟩
  · cases hs : p.spawner with
    | none =>
      rw [hs] at h
      exact absurd h (Multiset.notMem_zero t)
    | some phase =>
      rw [hs] at h
      refine ⟨.spawner, by simp [Progress.Enabled, hs], ?_⟩
      simp only [IsTask, hs, spawnerTasks]
      rw [Multiset.mem_singleton.mp h]
  · exact ⟨.input, by simpa [Progress.Enabled] using Nat.pos_of_ne_zero hn,
      Nat.pos_of_ne_zero hn, rfl⟩
  · exact ⟨.unreserve, by simpa [Progress.Enabled] using Nat.pos_of_ne_zero hn,
      Nat.pos_of_ne_zero hn, rfl⟩
  · have hg' := Finset.mem_range.mp hg
    unfold groupTasks at h
    split at h
    · rename_i hle
      refine ⟨.group g, ⟨hg', hle⟩, hg', ?_⟩
      simp only [groupTasks, if_pos hle]
      rw [Multiset.mem_singleton.mp h]
    · exact absurd h (Multiset.notMem_zero t)
  · cases hb : p.place b with
    | parked next =>
      rw [hb] at h
      exact absurd h (Multiset.notMem_zero t)
    | finished =>
      rw [hb] at h
      exact absurd h (Multiset.notMem_zero t)
    | running next phase =>
      refine ⟨.bucket b, ⟨next, phase, hb⟩, ?_⟩
      rw [hb] at h
      simp only [IsTask, hb]
      cases phase <;> rw [placeTasks, Multiset.mem_singleton] at h <;> rw [placeTasks, h]

/-- An actor that can move has a task. -/
theorem exists_task {a : Actor} (h : p.Enabled a) : ∃ t, W.IsTask p a t ∧ t ∈ W.tasksOf p := by
  cases a with
  | spawner =>
    cases hs : p.spawner with
    | none => exact absurd hs h
    | some phase =>
      refine ⟨.spawner phase, by simp only [IsTask, hs, spawnerTasks], ?_⟩
      rw [W.tasksOf_spawner, hs]
      exact Multiset.mem_add.mpr (.inl (Multiset.mem_singleton_self _))
  | input =>
    refine ⟨.input, ⟨h, rfl⟩, ?_⟩
    rw [W.tasksOf_input h]
    exact Multiset.mem_cons_self _ _
  | unreserve =>
    refine ⟨.unreserve, ⟨h, rfl⟩, ?_⟩
    rw [W.tasksOf_unreserve h]
    exact Multiset.mem_cons_self _ _
  | group g =>
    refine ⟨.handOver g (p.handed g) (W.vec g), ⟨h.1, by simp only [groupTasks, if_pos h.2]⟩, ?_⟩
    rw [W.tasksOf_group h.1, groupTasks, if_pos h.2]
    exact Multiset.mem_add.mpr (.inl (Multiset.mem_singleton_self _))
  | bucket b =>
    obtain ⟨next, phase, hb⟩ := h
    have hone : ∃ t, W.placeTasks b (.running next phase) = {t} := by
      cases phase <;> exact ⟨_, rfl⟩
    obtain ⟨t, ht⟩ := hone
    refine ⟨t, by simp only [IsTask, hb, ht], ?_⟩
    rw [W.tasksOf_place b, hb, ht]
    exact Multiset.mem_add.mpr (.inl (Multiset.mem_singleton_self _))

end Tasks

/-! ## 4. Buckets and what they store -/

section Stored

@[simp] theorem bucketAt_index (b : Fin mergeStringBuckets) (k next : Nat) :
    (W.bucketAt b k next).index = b :=
  addAll_index _ _

@[simp] theorem bucketAt_nextInputGroupIndex (b : Fin mergeStringBuckets) (k next : Nat) :
    (W.bucketAt b k next).nextInputGroupIndex = next := rfl

/-- A bucket's words are the table of the strings it has added. -/
theorem bucketAt_represents (b : Fin mergeStringBuckets) (k next : Nat) :
    (W.bucketAt b k next).Represents
      ∧ (W.bucketAt b k next).words
        = Intern.internAll [] ((W.upTo b k).map (·.value.bytes)) := by
  obtain ⟨hr, hw⟩ := @MergeStringsSectionBucket.words_addAll (W.upTo b k) _
    (represents_new b)
  exact ⟨⟨hr.lookup, hr.next⟩, hw⟩

theorem upTo_succ (b : Fin mergeStringBuckets) (k : Nat) :
    W.upTo b (k + 1) = W.upTo b k ++ (W.vec k b).map (·.string) := by
  simp [upTo, range_succ]

theorem upTo_add (b : Fin mergeStringBuckets) (k : Nat) : ∀ m,
    ∃ rest, W.upTo b (k + m) = W.upTo b k ++ rest
  | 0 => ⟨[], by simp⟩
  | m + 1 => by
    obtain ⟨rest, h⟩ := upTo_add b k m
    refine ⟨rest ++ (W.vec (k + m) b).map (·.string), ?_⟩
    rw [← Nat.add_assoc, upTo_succ, h, List.append_assoc]

variable {k : Nat} {processed : Fin mergeStringBuckets → Nat}

/-- The words of a bucket stay where they are. -/
theorem words_isPrefix_table (b : Fin mergeStringBuckets) (h : k ≤ groups.length)
    (next : Nat) : (W.bucketAt b k next).words <+: W.table b := by
  obtain ⟨rest, hrest⟩ := W.upTo_add b k (groups.length - k)
  rw [Nat.add_sub_cancel' h] at hrest
  rw [table, (W.bucketAt_represents b k next).2, (W.bucketAt_represents b groups.length 0).2,
    hrest, map_append, Intern.internAll_append]
  exact Intern.isPrefix_internAll _ _

theorem addAll_bucketAt (b : Fin mergeStringBuckets) (k next : Nat) :
    (W.bucketAt b k next).addAll ((W.vec k b).map (·.string)) = W.bucketAt b (k + 1) next := by
  rw [bucketAt, addAll_setNext,
    ← addAll_append, ← upTo_succ]
  rfl

/-- Stores the final places of some strings. -/
def storeAll (store : OffsetStore) (strings : List StringToMerge) : OffsetStore :=
  strings.foldl (fun store x => store.put x.offsetOut (W.placeOf x)) store

theorem storeAll_cons (store : OffsetStore) (x : StringToMerge) (xs : List StringToMerge) :
    W.storeAll store (x :: xs) = W.storeAll (store.put x.offsetOut (W.placeOf x)) xs := rfl

theorem foldl_put_eq (b : Fin mergeStringBuckets) {xs : List StringToMerge}
    (hxs : ∀ x ∈ xs, bucketOf x.string.hash = b) (store : OffsetStore) :
    xs.foldl (fun st x => st.put x.offsetOut (placeIn b (W.table b) x.string.value.bytes)) store
      = W.storeAll store xs := by
  induction xs generalizing store with
  | nil => rw [storeAll, foldl_nil, foldl_nil]
  | cons x xs ih =>
    have hplace : W.placeOf x = placeIn b (W.table b) x.string.value.bytes := by
      rw [placeOf, hxs x mem_cons_self]
    rw [foldl_cons, ← hplace, ih fun y hy => hxs y (mem_cons_of_mem x hy),
      storeAll_cons]

theorem processSplitOutput_bucketAt (hfits : W.StringsFit) (b : Fin mergeStringBuckets)
    (h : k < groups.length) (next : Nat) (store : OffsetStore) :
    processSplitOutput (W.bucketAt b k next) store (W.vec k b)
      = .ok (W.bucketAt b (k + 1) next, W.storeAll store (W.vec k b)) := by
  have hp := W.words_isPrefix_table b (show k + 1 ≤ groups.length from h) next
  rw [← addAll_bucketAt] at hp
  have hb : ∀ x ∈ W.vec k b, bucketOf x.string.hash = b := by
    intro x hx
    simpa using (mem_filter.mp hx).2
  rw [processSplitOutput_eq (hfits b) store (W.bucketAt_represents b k next).1 hp,
    addAll_bucketAt, bucketAt_index, W.foldl_put_eq b hb]

theorem storeAll_of_forall_ne {key : Nat} : ∀ {xs : List StringToMerge} (store : OffsetStore),
    (∀ x ∈ xs, x.offsetOut ≠ .inShard key) →
      (W.storeAll store xs).stringOffsets key = store.stringOffsets key
  | [], _, _ => rfl
  | x :: xs, store, h => by
    have ih := storeAll_of_forall_ne (store.put x.offsetOut (W.placeOf x))
      (fun y hy => h y (mem_cons_of_mem x hy))
    refine ih.trans ?_
    cases hx : x.offsetOut with
    | inShard k =>
      have hne : key ≠ k := fun e => h x mem_cons_self (by rw [hx, e])
      simp [OffsetStore.put, hne]
    | overflow k => rfl

theorem storeAll_of_mem {key : Nat} {x : StringToMerge} (hx : x.offsetOut = .inShard key) :
    ∀ {xs : List StringToMerge} (store : OffsetStore), x ∈ xs →
      (∀ y ∈ xs, y.offsetOut = .inShard key → y = x) →
      (W.storeAll store xs).stringOffsets key = some (W.placeOf x)
  | [], _, hmem, _ => absurd hmem not_mem_nil
  | y :: ys, store, hmem, hunique => by
    by_cases hys : x ∈ ys
    · exact storeAll_of_mem hx (store.put y.offsetOut (W.placeOf y)) hys
        (fun z hz => hunique z (mem_cons_of_mem y hz))
    · have hxy : x = y := (mem_cons.mp hmem).resolve_right hys
      subst hxy
      have hne : ∀ z ∈ ys, z.offsetOut ≠ .inShard key := fun z hz e =>
        hys (hunique z (mem_cons_of_mem x hz) e ▸ hz)
      refine (W.storeAll_of_forall_ne (store.put x.offsetOut (W.placeOf x)) hne).trans ?_
      simp [OffsetStore.put, hx]

theorem mem_overflowed_storeAll {key : Nat} {offset : BucketOffset} :
    ∀ {xs : List StringToMerge} (store : OffsetStore),
      (key, offset) ∈ (W.storeAll store xs).overflowed ↔
        (key, offset) ∈ store.overflowed
          ∨ ∃ x ∈ xs, x.offsetOut = .overflow key ∧ offset = W.placeOf x
  | [], store => by simp [storeAll]
  | x :: xs, store => by
    refine (@mem_overflowed_storeAll key offset xs (store.put x.offsetOut (W.placeOf x))).trans ?_
    cases hx : x.offsetOut with
    | inShard k => simp [OffsetStore.put, hx]
    | overflow k =>
      have hcell : ∀ k' o, (k', o) ∈ (store.put (.overflow k) (W.placeOf x)).overflowed ↔
          (k', o) ∈ store.overflowed ∨ (k' = k ∧ o = W.placeOf x) := by
        intro k' o
        simp [OffsetStore.put]
      rw [hcell, or_assoc]
      refine or_congr_right ?_
      rw [exists_mem_cons_iff, hx]
      refine or_congr_left (and_congr_left fun _ => ?_)
      exact ⟨fun e => by rw [e], fun e => (OffsetOut.overflow.inj e).symm⟩

variable {store : OffsetStore} {popped : Nat}

/-- A bucket adds the strings of its next group. -/
theorem Stores.process (h : W.Stores popped processed store) {b : Fin mergeStringBuckets}
    (hk : processed b = k) (hpopped : k < popped) :
    W.Stores popped (update processed b (k + 1)) (W.storeAll store (W.vec k b)) := by
  have hvec : ∀ x, x ∈ W.vec k b ↔ x ∈ W.items k ∧ bucketOf x.string.hash = b := by
    intro x
    simp [vec]
  refine ⟨?_, ?_, ?_⟩
  · intro g x key hg hx hout
    by_cases hmem : g = k ∧ bucketOf x.string.hash = b
    · obtain ⟨rfl, hb⟩ := hmem
      rw [W.storeAll_of_mem hout store ((hvec x).mpr ⟨hx, hb⟩), hb, update_self,
        if_pos (Nat.lt_succ_self g)]
      intro y hy hyout
      exact ((W.distinct g g x y hx ((hvec y).mp hy).1 (by rw [hout, hyout])).2).symm
    · rw [W.storeAll_of_forall_ne store, h.cell g x key hg hx hout]
      · by_cases hb : bucketOf x.string.hash = b
        · have hgk : g ≠ k := fun e => hmem ⟨e, hb⟩
          rw [hb, update_self, hk]
          congr 1
          have : g < k ↔ g < k + 1 := by omega
          simp only [this]
        · rw [update_of_ne hb]
      · intro y hy hyout
        obtain ⟨hgk, hxy⟩ := W.distinct g k x y hx ((hvec y).mp hy).1 (by rw [hout, hyout])
        exact hmem ⟨hgk, hxy ▸ ((hvec y).mp hy).2⟩
  · intro key hnone
    rw [W.storeAll_of_forall_ne store]
    · exact h.no_cell key hnone
    · intro y hy
      exact hnone k y hpopped ((hvec y).mp hy).1
  · intro key offset
    rw [W.mem_overflowed_storeAll, h.overflow]
    constructor
    · rintro (⟨g, x, hg, hx, hout, ho⟩ | ⟨x, hx, hout, ho⟩)
      · refine ⟨g, x, ?_, hx, hout, ho⟩
        by_cases hb : bucketOf x.string.hash = b
        · rw [hb, hk] at hg
          rw [hb, update_self]
          omega
        · rwa [update_of_ne hb]
      · obtain ⟨hxk, hb⟩ := (hvec x).mp hx
        refine ⟨k, x, ?_, hxk, hout, ho⟩
        rw [hb, update_self]
        exact Nat.lt_succ_self k
    · rintro ⟨g, x, hg, hx, hout, ho⟩
      by_cases hb : bucketOf x.string.hash = b
      · rw [hb, update_self] at hg
        rcases Nat.lt_succ_iff_lt_or_eq.mp hg with hlt | rfl
        · exact .inl ⟨g, x, by rw [hb, hk]; exact hlt, hx, hout, ho⟩
        · exact .inr ⟨x, (hvec x).mpr ⟨hx, hb⟩, hout, ho⟩
      · rw [update_of_ne hb] at hg
        exact .inl ⟨g, x, hg, hx, hout, ho⟩

/-- A group is split: its offsets have cells, without their output offsets. -/
theorem Stores.claim (h : W.Stores popped processed store) (hle : ∀ b, processed b ≤ popped) :
    W.Stores (popped + 1) processed (store.claim (W.shard popped).keys) := by
  refine ⟨?_, ?_, h.overflow⟩
  · intro g x key hg hx hout
    simp only [OffsetStore.claim]
    rcases Nat.lt_succ_iff_lt_or_eq.mp hg with hlt | rfl
    · have hnot : key ∉ (W.shard popped).keys := by
        intro hmem
        obtain ⟨y, hy, hyout⟩ := (W.accepted popped key).mp hmem
        have := (W.distinct g popped x y hx hy (by rw [hout, hyout])).1
        omega
      rw [if_neg hnot]
      exact h.cell g x key hlt hx hout
    · have hmem : key ∈ (W.shard g).keys := (W.accepted g key).mpr ⟨x, hx, hout⟩
      have := hle (bucketOf x.string.hash)
      rw [if_pos hmem, if_neg (by omega)]
  · intro key hnone
    have hnot : key ∉ (W.shard popped).keys := by
      intro hmem
      obtain ⟨y, hy, hyout⟩ := (W.accepted popped key).mp hmem
      exact hnone popped y (Nat.lt_succ_self _) hy hyout
    simp only [OffsetStore.claim, if_neg hnot]
    exact h.no_cell key fun g x hg hx => hnone g x (by omega) hx

end Stored

end Workload

end Srs.StringMerging
