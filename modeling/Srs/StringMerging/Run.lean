/-
# A step of a task is a step of the machine

One lemma for each kind of task: if the state belongs to a progress (`Follows`), then after a
step of the task it belongs to the progress after the step of the actor the task stands for.
From this, by induction over the run, every reachable state belongs to a valid progress
(`exists_follows`), and from every reachable state the tasks can be brought to an end
(`exists_finished`).
-/
import Mathlib.Data.Multiset.Bind
import Srs.StringMerging.Simulation

namespace Srs.StringMerging

open List Progress Multiset Function

namespace Workload

variable {hashBytes : Bytes → UInt64} {room : Shard → Nat → Bool} {groups : List SectionGroup}
  (W : Workload hashBytes room groups) {p : Progress} {s : State} {rest : Multiset Task}

/-! ## 1. Slots -/

variable {g : Nat}

theorem slotOf_of_le {b : Fin mergeStringBuckets} (hh : p.Handed g b)
    (ht : (p.place b).taken groups.length ≤ g) : W.slotOf p g b = .strings (W.vec g b) := by
  rw [slotOf, if_pos hh, if_pos ht]

theorem slotOf_of_lt {b : Fin mergeStringBuckets} (hh : p.Handed g b)
    (ht : g < (p.place b).taken groups.length) : W.slotOf p g b = .empty := by
  rw [slotOf, if_pos hh, if_neg (by omega)]

theorem slotOf_of_parked {b : Fin mergeStringBuckets} (hh : ¬ p.Handed g b)
    (hp : p.place b = .parked g) : W.slotOf p g b = .waitingForStrings (W.bucketAt b g g) := by
  rw [slotOf, if_neg hh, hp]
  exact if_pos rfl

theorem slotOf_of_not_parked {b : Fin mergeStringBuckets} (hh : ¬ p.Handed g b)
    (hp : p.place b ≠ .parked g) : W.slotOf p g b = .empty := by
  rw [slotOf, if_neg hh]
  cases hb : p.place b with
  | parked next =>
    have hne : ¬ next = g := fun e => hp (by rw [hb, e])
    exact if_neg hne
  | running next phase => rfl
  | finished => rfl

/-- What a slot holds depends on three things only. -/
theorem slotOf_congr {q : Progress} {b : Fin mergeStringBuckets}
    (hh : q.Handed g b ↔ p.Handed g b)
    (ht : (q.place b).taken groups.length ≤ g ↔ (p.place b).taken groups.length ≤ g)
    (hp : q.place b = .parked g ↔ p.place b = .parked g) : W.slotOf q g b = W.slotOf p g b := by
  by_cases h1 : p.Handed g b
  · by_cases h2 : (p.place b).taken groups.length ≤ g
    · rw [W.slotOf_of_le h1 h2, W.slotOf_of_le (hh.mpr h1) (ht.mpr h2)]
    · have h2' : ¬ (q.place b).taken groups.length ≤ g := fun h => h2 (ht.mp h)
      rw [W.slotOf_of_lt h1 (by omega), W.slotOf_of_lt (hh.mpr h1) (by omega)]
  · have h1' : ¬ q.Handed g b := fun h => h1 (hh.mp h)
    by_cases h2 : p.place b = .parked g
    · rw [W.slotOf_of_parked h1 h2, W.slotOf_of_parked h1' (hp.mpr h2)]
    · rw [W.slotOf_of_not_parked h1 h2, W.slotOf_of_not_parked h1' fun h => h2 (hp.mp h)]

/-- A bucket's move leaves a slot alone that it neither takes strings from nor waits in. -/
theorem slotOf_setPlace {b c : Fin mergeStringBuckets} {x : Place} {g : Nat}
    (h : c = b → (x.taken groups.length ≤ g ↔ (p.place b).taken groups.length ≤ g)
      ∧ (x = .parked g ↔ p.place b = .parked g)) :
    W.slotOf (p.setPlace b x) g c = W.slotOf p g c := by
  by_cases hc : c = b
  · subst hc
    refine W.slotOf_congr Iff.rfl ?_ ?_
    · rw [setPlace_self]
      exact (h rfl).1
    · rw [setPlace_self]
      exact (h rfl).2
  · refine W.slotOf_congr Iff.rfl ?_ ?_
    · rw [setPlace_of_ne hc]
    · rw [setPlace_of_ne hc]

theorem setSlot_slots (s : State) (g g' : Nat) (b b' : Fin mergeStringBuckets)
    (slot : StringsSlot) :
    (s.setSlot g b slot).slots g' b' = if g' = g ∧ b' = b then slot else s.slots g' b' := by
  by_cases hg : g' = g
  · subst hg
    by_cases hb : b' = b
    · simp [State.setSlot, hb]
    · simp [State.setSlot, hb]
  · simp [State.setSlot, hg]

/-! ## 2. What does not change -/

theorem finished_setPlace {b : Fin mergeStringBuckets} {x : Place}
    (h : W.finishedOf b x = W.finishedOf b (p.place b)) :
    ∑ c, W.finishedOf c ((p.setPlace b x).place c) = ∑ c, W.finishedOf c (p.place c) := by
  rw [setPlace, Bag.sum_update (Finset.mem_univ b) W.finishedOf, h,
    ← Bag.sum_eq (Finset.mem_univ b) W.finishedOf]

theorem processed_setPlace (n : Nat) (b : Fin mergeStringBuckets) (x : Place) :
    (fun c => ((p.setPlace b x).place c).processed n)
      = update (fun c => (p.place c).processed n) b (x.processed n) := by
  funext c
  by_cases hc : c = b
  · subst hc
    rw [setPlace_self, update_self]
  · rw [setPlace_of_ne hc, update_of_ne hc]

theorem processed_setPlace_of_eq {n : Nat} {b : Fin mergeStringBuckets} {x : Place}
    (h : x.processed n = (p.place b).processed n) :
    (fun c => ((p.setPlace b x).place c).processed n) = fun c => (p.place c).processed n := by
  rw [processed_setPlace, h]
  exact update_eq_self b _

/-- Two states that differ at most in the tasks and the pool. -/
structure SameData (s s' : State) : Prop where
  unprocessed : s'.unprocessed = s.unprocessed
  slots : s'.slots = s.slots
  shards : s'.finishedShards = s.finishedShards
  finished : s'.finishedBuckets = s.finishedBuckets
  store : s'.store = s.store
  errors : s'.errors = s.errors

/-- A step of a bucket's task that changes neither its slots nor what is stored. -/
theorem Follows.advance (h : W.Follows p s) {s' : State} (hs : SameData s s')
    {b : Fin mergeStringBuckets} {next : Nat} {phase : Phase} {available inputs : Nat}
    (hb : p.place b = .running next phase) (next' : Nat) (phase' : Phase)
    (htaken : (Place.running next' phase').taken groups.length
      = (Place.running next phase).taken groups.length)
    (hprocessed : (Place.running next' phase').processed groups.length
      = (Place.running next phase).processed groups.length)
    (havail : s'.available = available)
    (htasks : s'.tasks = W.placeTasks b (.running next' phase')
      + W.tasksOf ({ p with available := available, inputs := inputs }.setPlace b .finished)) :
    W.Follows ({ p with available := available, inputs := inputs }.setPlace b
      (.running next' phase')) s' := by
  refine ⟨hs.unprocessed.trans h.unprocessed, ?_, ?_, ?_, ?_, hs.errors.trans h.errors, havail,
    htasks.trans (W.tasksOf_setPlace b _).symm⟩
  · intro g c
    rw [hs.slots]
    refine (h.slots g c).trans (Eq.symm ?_)
    refine @slotOf_setPlace _ _ _ W p b c (.running next' phase') g ?_
    intro _
    rw [hb, htaken]
    exact ⟨Iff.rfl, by simp⟩
  · rw [hs.shards]
    exact h.shards
  · rw [hs.finished]
    exact h.finished.trans (W.finished_setPlace (by rw [hb]; rfl)).symm
  · rw [hs.store]
    have hst := h.stores
    rwa [← @processed_setPlace_of_eq p groups.length b (.running next' phase')
      (by rw [hb, hprocessed])] at hst

/-! ## 3. One step of each kind of task -/

theorem spawnStep_cases (h : s.available = p.available) (phase : SpawnPhase) :
    (p.spawnMove phase = (p, none) ∧ spawnStep s phase = (s, none))
      ∨ (p.spawnMove phase = (p, some (.compareExchange p.available))
        ∧ spawnStep s phase = (s, some (.compareExchange p.available)))
      ∨ (p.spawnMove phase
          = ({ p with available := p.available - mergeStringBuckets, inputs := p.inputs + 1 },
            some .load)
        ∧ spawnStep s phase
          = ({ s with available := p.available - mergeStringBuckets }.spawn .input,
            some .load)) := by
  cases phase with
  | load =>
    by_cases hlt : p.available < mergeStringBuckets
    · refine .inl ⟨by simp only [spawnMove, if_pos hlt], ?_⟩
      simp only [spawnStep, h, if_pos hlt]
    · refine .inr (.inl ⟨by simp only [spawnMove, if_neg hlt], ?_⟩)
      simp only [spawnStep, h, if_neg hlt]
  | compareExchange v =>
    by_cases hv : p.available = v
    · refine .inr (.inr ⟨by simp only [spawnMove, if_pos hv], ?_⟩)
      simp only [spawnStep, h, if_pos hv]
    · refine .inl ⟨by simp only [spawnMove, if_neg hv], ?_⟩
      simp only [spawnStep, h, if_neg hv]

section Steps

variable {capacity : Nat} {b : Fin mergeStringBuckets} {next : Nat}

section

variable (h : W.Follows p s)
include h

/-- The tasks other than that of a bucket. -/
theorem rest_of_bucket {t : Task} (ht : W.placeTasks b (p.place b) = {t})
    (hrest : s.tasks = t ::ₘ rest) : rest = W.tasksOf (p.setPlace b .finished) := by
  have he := h.tasks
  rw [hrest, W.tasksOf_place b, ht, singleton_add] at he
  exact (Multiset.cons_inj_right t).mp he

theorem follows_take (hv : p.Valid groups.length capacity)
    (hb : p.place b = .running next .take)
    (hrest : s.tasks = .bucket (W.bucketAt b next next) .take ::ₘ rest) :
    W.Follows (p.move groups.length (.bucket b))
      (exec hashBytes room groups.length { s with tasks := rest }
        (.bucket (W.bucketAt b next next) .take)) := by
  have hr := W.rest_of_bucket h (by rw [hb]; rfl) hrest
  have hnp : ∀ k, p.place b ≠ .parked k := fun k => by rw [hb]; simp
  simp only [move, hb, exec, bucketAt_nextInputGroupIndex, bucketAt_index]
  by_cases hlt : next < groups.length
  · rw [if_pos hlt, if_pos hlt]
    by_cases hh : p.Handed next b
    · -- the strings are there
      have hslot : s.slots next b = .strings (W.vec next b) := by
        rw [h.slots, W.slotOf_of_le hh (by rw [hb]; exact Nat.le_refl next)]
      rw [if_pos hh]
      simp only [hslot]
      refine ⟨h.unprocessed, ?_, h.shards, ?_, ?_, h.errors, h.available, ?_⟩
      · intro g c
        refine (setSlot_slots { s with tasks := rest } next g b c .empty).trans ?_
        split
        · rename_i he
          obtain ⟨rfl, rfl⟩ := he
          refine (W.slotOf_of_lt (p := p.setPlace c (.running g .process)) hh ?_).symm
          rw [setPlace_self]
          exact Nat.lt_succ_self g
        · rename_i hne
          refine (h.slots g c).trans (W.slotOf_setPlace ?_).symm
          rintro rfl
          have hg : g ≠ next := fun e => hne ⟨e, rfl⟩
          rw [hb]
          simp only [Place.taken]
          refine ⟨by omega, by simp⟩
      · exact h.finished.trans (W.finished_setPlace (by rw [hb]; rfl)).symm
      · have hs := h.stores
        rwa [← @processed_setPlace_of_eq p groups.length b (.running next .process)
          (by rw [hb]; rfl)] at hs
      · rw [W.tasksOf_setPlace, ← hr]
        rfl
    · -- they are not: the bucket waits in the slot
      have hslot : s.slots next b = .empty := by
        rw [h.slots, W.slotOf_of_not_parked hh (hnp next)]
      rw [if_neg hh]
      simp only [hslot]
      refine ⟨h.unprocessed, ?_, h.shards, ?_, ?_, h.errors, h.available, ?_⟩
      · intro g c
        refine (setSlot_slots { s with tasks := rest } next g b c _).trans ?_
        split
        · rename_i he
          obtain ⟨rfl, rfl⟩ := he
          exact (W.slotOf_of_parked (p := p.setPlace c (.parked g)) hh
            (setPlace_self _ _)).symm
        · rename_i hne
          refine (h.slots g c).trans (W.slotOf_setPlace ?_).symm
          rintro rfl
          have hg : next ≠ g := fun e => hne ⟨e.symm, rfl⟩
          rw [hb]
          exact ⟨Iff.rfl, by simp [hg]⟩
      · exact h.finished.trans (W.finished_setPlace (by rw [hb]; rfl)).symm
      · have hs := h.stores
        rwa [← @processed_setPlace_of_eq p groups.length b (.parked next) (by rw [hb]; rfl)] at hs
      · rw [W.tasksOf_setPlace, ← hr]
        exact (zero_add rest).symm
  · -- the bucket has added all groups
    have hnext : next = groups.length := by
      have hbounds := hv.inBounds b
      rw [hb] at hbounds
      simp only [Place.InBounds] at hbounds
      omega
    rw [if_neg hlt, if_neg hlt]
    refine ⟨h.unprocessed, ?_, h.shards, ?_, ?_, h.errors, h.available, hr⟩
    · intro g c
      refine (h.slots g c).trans (W.slotOf_setPlace ?_).symm
      rintro rfl
      rw [hb, hnext]
      exact ⟨Iff.rfl, by simp⟩
    · have hold := Bag.sum_eq (Finset.mem_univ b) W.finishedOf p.place
      have hzero : W.finishedOf b (p.place b) = 0 := by rw [hb]; rfl
      rw [setPlace, Bag.sum_update (Finset.mem_univ b) W.finishedOf]
      rw [hzero, zero_add] at hold
      rw [← hold, ← h.finished, hnext, ← coe_add, add_comm]
      rfl
    · have hs := h.stores
      rwa [← @processed_setPlace_of_eq p groups.length b .finished (by rw [hb, hnext]; rfl)] at hs

theorem follows_process (hv : p.Valid groups.length capacity) (hfits : W.StringsFit)
    (hb : p.place b = .running next .process)
    (hrest : s.tasks = .bucket (W.bucketAt b next next) (.process (W.vec next b)) ::ₘ rest) :
    W.Follows (p.move groups.length (.bucket b))
      (exec hashBytes room groups.length { s with tasks := rest }
        (.bucket (W.bucketAt b next next) (.process (W.vec next b)))) := by
  have hr := W.rest_of_bucket h (by rw [hb]; rfl) hrest
  have hlt : next < groups.length := by
    have hbounds := hv.inBounds b
    rwa [hb] at hbounds
  have hpopped : next < p.popped := by
    refine (hv.taken b next ?_).1
    rw [hb]
    exact Nat.lt_succ_self next
  simp only [move, hb, exec, W.processSplitOutput_bucketAt hfits b hlt]
  refine ⟨h.unprocessed, ?_, h.shards, ?_, ?_, h.errors, h.available, ?_⟩
  · intro g c
    refine (h.slots g c).trans (W.slotOf_setPlace ?_).symm
    rintro rfl
    rw [hb]
    exact ⟨Iff.rfl, by simp⟩
  · exact h.finished.trans (W.finished_setPlace (by rw [hb]; rfl)).symm
  · rw [processed_setPlace]
    exact Stores.process W h.stores (by simp only [hb]; rfl) hpopped
  · rw [W.tasksOf_setPlace, ← hr]
    rfl

theorem follows_return (hb : p.place b = .running next .returnStrings)
    (hrest : s.tasks = .bucket (W.bucketAt b (next + 1) next) .returnStrings ::ₘ rest) :
    W.Follows (p.move groups.length (.bucket b))
      (exec hashBytes room groups.length { s with tasks := rest }
        (.bucket (W.bucketAt b (next + 1) next) .returnStrings)) := by
  have hr := W.rest_of_bucket h (by rw [hb]; rfl) hrest
  simp only [move, hb, exec, h.available]
  refine Follows.advance W h ?_ hb next (.spawn .load) rfl rfl ?_ ?_
  · exact ⟨rfl, rfl, rfl, rfl, rfl, rfl⟩
  · rfl
  · exact congrArg _ hr

variable {phase : SpawnPhase}

theorem follows_spawn
    (hb : p.place b = .running next (.spawn phase))
    (hrest : s.tasks = .bucket (W.bucketAt b (next + 1) next) (.spawn phase) ::ₘ rest) :
    W.Follows (p.move groups.length (.bucket b))
      (exec hashBytes room groups.length { s with tasks := rest }
        (.bucket (W.bucketAt b (next + 1) next) (.spawn phase))) := by
  have hr := W.rest_of_bucket h (by rw [hb]; rfl) hrest
  have havail : ({ s with tasks := rest } : State).available = p.available := h.available
  simp only [move, hb, exec]
  rcases spawnStep_cases havail phase with ⟨hm, he⟩ | ⟨hm, he⟩ | ⟨hm, he⟩
  · rw [hm, he]
    refine Follows.advance W h ?_ hb (next + 1) .take rfl rfl ?_ ?_
    · exact ⟨rfl, rfl, rfl, rfl, rfl, rfl⟩
    · exact h.available
    · exact congrArg _ hr
  · rw [hm, he]
    refine Follows.advance W h ?_ hb next (.spawn (.compareExchange p.available)) rfl rfl ?_ ?_
    · exact ⟨rfl, rfl, rfl, rfl, rfl, rfl⟩
    · exact h.available
    · exact congrArg _ hr
  · rw [hm, he]
    refine Follows.advance W h ?_ hb next (.spawn .load) rfl rfl ?_ ?_
    · exact ⟨rfl, rfl, rfl, rfl, rfl, rfl⟩
    · rfl
    · have hin := W.tasksOf_input (p := setPlace { p with
        available := p.available - mergeStringBuckets, inputs := p.inputs + 1 } b .finished)
        (Nat.succ_pos p.inputs)
      rw [hin]
      exact congrArg
        (fun r => W.placeTasks b (.running next (.spawn .load)) + .input ::ₘ r) hr

theorem follows_spawner (hp : p.spawner = some phase)
    (hrest : s.tasks = .spawner phase ::ₘ rest) :
    W.Follows (p.move groups.length .spawner)
      (exec hashBytes room groups.length { s with tasks := rest } (.spawner phase)) := by
  have hr : rest = W.tasksOf { p with spawner := none } := by
    have he := h.tasks
    rw [hrest, W.tasksOf_spawner, hp] at he
    exact (Multiset.cons_inj_right _).mp he
  have havail : ({ s with tasks := rest } : State).available = p.available := h.available
  simp only [move, hp, exec]
  rcases spawnStep_cases havail phase with ⟨hm, he⟩ | ⟨hm, he⟩ | ⟨hm, he⟩
  · rw [hm, he]
    exact ⟨h.unprocessed, h.slots, h.shards, h.finished, h.stores, h.errors, h.available, hr⟩
  · rw [hm, he]
    refine ⟨h.unprocessed, h.slots, h.shards, h.finished, h.stores, h.errors, h.available, ?_⟩
    rw [W.tasksOf_spawner]
    exact congrArg (fun r => .spawner (.compareExchange p.available) ::ₘ r) hr
  · rw [hm, he]
    refine ⟨h.unprocessed, h.slots, h.shards, h.finished, h.stores, h.errors, rfl, ?_⟩
    have hin := W.tasksOf_input (p := { p with
      spawner := none, available := p.available - mergeStringBuckets, inputs := p.inputs + 1 })
      (Nat.succ_pos p.inputs)
    rw [W.tasksOf_spawner]
    dsimp only
    rw [hin]
    exact congrArg (fun r => .spawner .load ::ₘ .input ::ₘ r) hr

theorem follows_input (hv : p.Valid groups.length capacity)
    (hp : 0 < p.inputs) (hrest : s.tasks = .input ::ₘ rest) :
    W.Follows (p.move groups.length .input)
      (exec hashBytes room groups.length { s with tasks := rest } .input) := by
  have hr : rest = W.tasksOf { p with inputs := p.inputs - 1 } := by
    have he := h.tasks
    rw [hrest, W.tasksOf_input hp] at he
    exact (Multiset.cons_inj_right _).mp he
  simp only [move, exec]
  by_cases hlt : p.popped < groups.length
  · have hdrop : s.unprocessed = groups[p.popped] :: groups.drop (p.popped + 1) := by
      rw [h.unprocessed, drop_eq_getElem_cons hlt]
    rw [if_pos hlt]
    simp only [hdrop, W.split p.popped hlt, W.index p.popped hlt]
    refine ⟨rfl, ?_, ?_, h.finished, ?_, h.errors, h.available, ?_⟩
    · intro g b
      refine (h.slots g b).trans (Eq.symm (W.slotOf_congr ?_ Iff.rfl Iff.rfl))
      simp only [Handed]
      by_cases hg : g = p.popped
      · simp [hg]
      · rw [update_of_ne hg]
        omega
    · intro g
      change update s.finishedShards p.popped (some (W.shard p.popped)) g
        = if g < p.popped + 1 then some (W.shard g) else none
      by_cases hg : g = p.popped
      · subst hg
        rw [update_self, if_pos (Nat.lt_succ_self _)]
      · rw [update_of_ne hg, h.shards]
        have : g < p.popped ↔ g < p.popped + 1 := by omega
        simp only [this]
    · refine Stores.claim W h.stores ?_
      intro b
      exact Nat.le_trans (Place.processed_le_taken _ _) (hv.taken_le b)
    · rw [W.tasksOf_pop, ← hr]
      rfl
  · have hdrop : s.unprocessed = [] := by
      rw [h.unprocessed, drop_of_length_le (by omega)]
    rw [if_neg hlt]
    simp only [hdrop]
    refine ⟨hdrop.symm.trans h.unprocessed, h.slots, h.shards, h.finished, h.stores, h.errors, h.available, ?_⟩
    have hidle := W.tasksOf_unreserve (p := { p with inputs := p.inputs - 1, idle := p.idle + 1 })
      (Nat.succ_pos p.idle)
    rw [hidle]
    exact congrArg (fun r => .unreserve ::ₘ r) hr

theorem follows_unreserve (hp : 0 < p.idle)
    (hrest : s.tasks = .unreserve ::ₘ rest) :
    W.Follows (p.move groups.length .unreserve)
      (exec hashBytes room groups.length { s with tasks := rest } .unreserve) := by
  have hr : rest = W.tasksOf { p with idle := p.idle - 1 } := by
    have he := h.tasks
    rw [hrest, W.tasksOf_unreserve hp] at he
    exact (Multiset.cons_inj_right _).mp he
  refine ⟨h.unprocessed, h.slots, h.shards, h.finished, h.stores, h.errors, ?_, hr⟩
  exact congrArg (· + mergeStringBuckets) h.available

theorem follows_handOver (hv : p.Valid groups.length capacity) {g : Nat}
    (hg : g < p.popped) (hle : p.handed g ≤ mergeStringBuckets)
    (hrest : s.tasks = .handOver g (p.handed g) (W.vec g) ::ₘ rest) :
    W.Follows (p.move groups.length (.group g))
      (exec hashBytes room groups.length { s with tasks := rest }
        (.handOver g (p.handed g) (W.vec g))) := by
  have hr : rest
      = W.tasksOf { p with handed := update p.handed g (mergeStringBuckets + 1) } := by
    have he := h.tasks
    rw [hrest, W.tasksOf_group hg, groupTasks, if_pos hle] at he
    exact (Multiset.cons_inj_right _).mp he
  simp only [exec]
  by_cases hlt : p.handed g < mergeStringBuckets
  · rw [dif_pos hlt]
    obtain ⟨b, hbdef⟩ : ∃ b : Fin mergeStringBuckets, b = ⟨p.handed g, hlt⟩ := ⟨_, rfl⟩
    have hval : b.val = p.handed g := by rw [hbdef]
    rw [← hbdef]
    have hnot : ¬ p.Handed g b := fun hh => by
      have := hh.2
      omega
    have htaken : (p.place b).taken groups.length ≤ g := by
      by_contra hgt
      exact hnot (hv.taken b g (by omega))
    have htasks : W.groupTasks g (p.handed g + 1)
        = {.handOver g (p.handed g + 1) (W.vec g)} := by
      rw [groupTasks, if_pos (Nat.succ_le_of_lt hlt)]
    have hhanded : ∀ g' c, (p.handOver g).Handed g' c ↔ p.Handed g' c ∨ (g' = g ∧ c = b) := by
      intro g' c
      rw [handed_group hg, Fin.ext_iff, hval]
    by_cases hplace : p.place b = .parked g
    · -- the bucket waited for these strings: a task for it is started
      have hslot : s.slots g b = .waitingForStrings (W.bucketAt b g g) := by
        rw [h.slots, W.slotOf_of_parked hnot hplace]
      rw [move_group_of_parked hlt (hbdef ▸ hplace), ← hbdef]
      simp only [hslot]
      refine ⟨h.unprocessed, ?_, h.shards, ?_, ?_, h.errors, h.available, ?_⟩
      · intro g' c
        refine (setSlot_slots { s with tasks := rest } g g' b c _).trans ?_
        split
        · rename_i he
          obtain ⟨rfl, rfl⟩ := he
          refine (slotOf_of_le W ?_ ?_).symm
          · exact (hhanded g' c).mpr (.inr ⟨rfl, rfl⟩)
          · rw [setPlace_self]
            exact Nat.le_refl g'
        · rename_i hne
          refine (h.slots g' c).trans (Eq.symm ?_)
          rw [W.slotOf_setPlace (p := p.handOver g) ?_]
          · refine W.slotOf_congr ?_ Iff.rfl Iff.rfl
            rw [hhanded]
            exact ⟨fun hh => hh.resolve_right hne, .inl⟩
          · rintro rfl
            have hgg : g ≠ g' := fun e => hne ⟨e.symm, rfl⟩
            rw [show (p.handOver g).place = p.place from rfl, hplace]
            exact ⟨Iff.rfl, by simp [hgg]⟩
      · exact h.finished.trans (W.finished_setPlace (p := p.handOver g)
          (by rw [show (p.handOver g).place = p.place from rfl, hplace]; rfl)).symm
      · have hs := h.stores
        rwa [← @processed_setPlace_of_eq p groups.length b (.running g .take)
          (by rw [hplace]; rfl)] at hs
      · have hb0 : W.placeTasks b (p.place b) = 0 := by rw [hplace]; rfl
        have hfin : W.tasksOf ((p.handOver g).setPlace b .finished) = W.tasksOf (p.handOver g) := by
          rw [W.tasksOf_place (p := p.handOver g) b, show (p.handOver g).place = p.place from rfl,
            hb0, zero_add]
        rw [W.tasksOf_setPlace, hfin, handOver, W.tasksOf_setHanded hg, htasks, ← hr]
        rfl
    · have hslot : s.slots g b = .empty := by
        rw [h.slots, W.slotOf_of_not_parked hnot hplace]
      rw [move_group_of_not_parked fun _ => hbdef ▸ hplace]
      simp only [hslot]
      refine ⟨h.unprocessed, ?_, h.shards, h.finished, h.stores, h.errors, h.available, ?_⟩
      · intro g' c
        refine (setSlot_slots { s with tasks := rest } g g' b c _).trans ?_
        split
        · rename_i he
          obtain ⟨rfl, rfl⟩ := he
          exact (slotOf_of_le W ((hhanded g' c).mpr (.inr ⟨rfl, rfl⟩)) htaken).symm
        · rename_i hne
          refine (h.slots g' c).trans (Eq.symm (W.slotOf_congr ?_ Iff.rfl Iff.rfl))
          rw [hhanded]
          exact ⟨fun hh => hh.resolve_right hne, .inl⟩
      · rw [handOver, W.tasksOf_setHanded hg, htasks, ← hr]
        rfl
  · rw [dif_neg hlt, move_group_of_not_parked fun h' => absurd h' hlt]
    have heq : p.handed g = mergeStringBuckets := by omega
    refine ⟨h.unprocessed, ?_, h.shards, h.finished, h.stores, h.errors, h.available, ?_⟩
    · intro g' b
      refine (h.slots g' b).trans (Eq.symm (W.slotOf_congr ?_ Iff.rfl Iff.rfl))
      rw [handed_group hg]
      have := b.isLt
      refine ⟨fun hh => hh.resolve_right fun e => by omega, .inl⟩
    · rw [handOver, W.tasksOf_setHanded hg, heq, groupTasks_done, zero_add]
      exact hr

/-- **A step of a task is the step of its actor.** -/
theorem exec_follows (hv : p.Valid groups.length capacity) (hfits : W.StringsFit)
    {a : Actor} {t : Task} (ha : p.Enabled a) (ht : W.IsTask p a t) (hrest : s.tasks = t ::ₘ rest) :
    W.Follows (p.move groups.length a)
      (exec hashBytes room groups.length { s with tasks := rest } t) := by
  cases a with
  | spawner =>
    cases hp : p.spawner with
    | none => exact absurd hp ha
    | some phase =>
      simp only [IsTask, hp, spawnerTasks, Multiset.singleton_inj] at ht
      subst ht
      exact W.follows_spawner h hp hrest
  | input =>
    obtain ⟨hp, rfl⟩ := ht
    exact W.follows_input h hv hp hrest
  | unreserve =>
    obtain ⟨hp, rfl⟩ := ht
    exact W.follows_unreserve h hp hrest
  | group g =>
    obtain ⟨hg, hle⟩ := ha
    have ht' := ht.2
    rw [groupTasks, if_pos hle, Multiset.singleton_inj] at ht'
    subst ht'
    exact W.follows_handOver h hv hg hle hrest
  | bucket b =>
    obtain ⟨next, phase, hb⟩ := ha
    simp only [IsTask, hb] at ht
    cases phase with
    | take =>
      rw [placeTasks, Multiset.singleton_inj] at ht
      subst ht
      exact W.follows_take h hv hb hrest
    | process =>
      rw [placeTasks, Multiset.singleton_inj] at ht
      subst ht
      exact W.follows_process h hv hfits hb hrest
    | returnStrings =>
      rw [placeTasks, Multiset.singleton_inj] at ht
      subst ht
      exact W.follows_return h hb hrest
    | spawn phase =>
      rw [placeTasks, Multiset.singleton_inj] at ht
      subst ht
      exact W.follows_spawn h hb hrest

end

end Steps

/-! ## 4. Runs -/

section Runs

variable {capacity : Nat}

theorem initial_follows : W.Follows (start capacity) (initial groups capacity) := by
  refine ⟨rfl, ?_, ?_, ?_, ?_, rfl, rfl, ?_⟩
  · intro g b
    have hh : ¬ (start capacity).Handed g b := fun h => absurd h.1 (Nat.not_lt_zero g)
    by_cases hg : g = 0
    · subst hg
      rw [W.slotOf_of_parked hh rfl]
      rfl
    · rw [W.slotOf_of_not_parked hh]
      · exact if_neg hg
      · intro e
        exact hg (Place.parked.inj e).symm
  · intro g
    exact (if_neg (Nat.not_lt_zero g)).symm
  · exact (Finset.sum_eq_zero fun b _ => rfl).symm
  · refine ⟨?_, fun _ _ => rfl, ?_⟩
    · intro g x key hg
      exact absurd hg (Nat.not_lt_zero g)
    · intro key offset
      refine ⟨fun h => absurd h not_mem_nil, ?_⟩
      rintro ⟨g, x, hg, -⟩
      exact absurd hg (Nat.not_lt_zero g)
  · have hsum : ∑ b, W.placeTasks b ((start capacity).place b) = 0 :=
      Finset.sum_eq_zero fun b _ => rfl
    rw [tasksOf, hsum]
    rfl

/-- Every state a run comes to belongs to a valid progress. -/
theorem exists_follows (hne : groups ≠ []) (hfits : W.StringsFit)
    (hr : Reachable hashBytes room groups capacity s) :
    ∃ p : Progress, p.Valid groups.length capacity ∧ W.Follows p s := by
  induction hr with
  | refl =>
    exact ⟨_, valid_start (length_pos_iff.mpr hne), W.initial_follows⟩
  | tail _ hstep ih =>
    obtain ⟨p, hv, h⟩ := ih
    obtain ⟨t, rest, hrest, rfl⟩ := hstep
    have hmem : t ∈ W.tasksOf p := by
      rw [← h.tasks, hrest]
      exact mem_cons_self t rest
    obtain ⟨a, ha, ht⟩ := W.exists_isTask hmem
    exact ⟨_, move_valid hv ha, W.exec_follows h hv hfits ha ht hrest⟩

/-- What the machine can do, the tasks can do. -/
theorem exists_run (hfits : W.StringsFit) {q : Progress}
    (hrun : Relation.ReflTransGen (Moves groups.length) p q)
    (hv : p.Valid groups.length capacity) (h : W.Follows p s) :
    ∃ s', Relation.ReflTransGen (Step hashBytes room groups.length) s s' ∧ W.Follows q s' := by
  induction hrun using Relation.ReflTransGen.head_induction_on generalizing s with
  | refl => exact ⟨s, Relation.ReflTransGen.refl, h⟩
  | head hmove _ ih =>
    obtain ⟨a, ha, rfl⟩ := hmove
    obtain ⟨t, ht, hmem⟩ := W.exists_task ha
    rw [← h.tasks] at hmem
    obtain ⟨rest, hrest⟩ := exists_cons_of_mem hmem
    obtain ⟨s', hrun', hf⟩ := ih (move_valid hv ha) (W.exec_follows h hv hfits ha ht hrest)
    exact ⟨s', Relation.ReflTransGen.head ⟨t, rest, hrest, rfl⟩ hrun', hf⟩

/-- Without a task nothing can move. -/
theorem quiescent_iff (h : W.Follows p s) : s.tasks = 0 ↔ p.Quiescent := by
  constructor
  · intro hs a ha
    obtain ⟨t, -, hmem⟩ := W.exists_task ha
    rw [← h.tasks, hs] at hmem
    exact notMem_zero t hmem
  · intro hq
    refine eq_zero_of_forall_notMem ?_
    intro t hmem
    rw [h.tasks] at hmem
    obtain ⟨a, ha, -⟩ := W.exists_isTask hmem
    exact hq a ha

/-- **From every reachable state the tasks can be brought to an end.** -/
theorem exists_finished (hne : groups ≠ []) (hfits : W.StringsFit)
    (hr : Reachable hashBytes room groups capacity s) :
    ∃ s', Relation.ReflTransGen (Step hashBytes room groups.length) s s' ∧ s'.tasks = 0 := by
  obtain ⟨p, hv, h⟩ := W.exists_follows hne hfits hr
  obtain ⟨q, hrun, -, hq⟩ := exists_quiescent hv
  obtain ⟨s', hrun', hf⟩ := W.exists_run hfits hrun hv h
  exact ⟨s', hrun', (W.quiescent_iff hf).mpr hq⟩

/-- What a run leaves behind. -/
structure Finished (s : State) : Prop where
  errors : s.errors = none
  buckets : s.finishedBuckets.Perm
    ((finRange mergeStringBuckets).map fun b =>
      W.bucketAt b groups.length groups.length)
  shards : ∀ g, g < groups.length → s.finishedShards g = some (W.shard g)
  stores : W.Stores groups.length (fun _ => groups.length) s.store

/-- **When no task is left, every bucket has the strings of every group.** -/
theorem finished_of_tasks_eq_zero (hne : groups ≠ []) (hfits : W.StringsFit)
    (hcap : mergeStringBuckets ≤ capacity) (hr : Reachable hashBytes room groups capacity s)
    (hs : s.tasks = 0) : W.Finished s ∧ s.available = capacity := by
  obtain ⟨p, hv, h⟩ := W.exists_follows hne hfits hr
  obtain ⟨hpopped, havail, hplace⟩ :=
    finished_of_quiescent hv hcap ((W.quiescent_iff h).mp hs)
  refine ⟨⟨h.errors, ?_, ?_, ?_⟩, h.available.trans havail⟩
  · have hfin := h.finished
    simp only [hplace, finishedOf] at hfin
    have hmap := bind_singleton (Finset.univ : Finset (Fin mergeStringBuckets)).val
      fun b => W.bucketAt b groups.length groups.length
    rw [Fin.univ_val_map, ofFn_eq_map] at hmap
    exact coe_eq_coe.mp (hfin.trans hmap)
  · intro g hg
    rw [h.shards, hpopped, if_pos hg]
  · have hst := h.stores
    simp only [hplace, Place.processed, hpopped] at hst
    exact hst

end Runs

end Workload

end Srs.StringMerging
