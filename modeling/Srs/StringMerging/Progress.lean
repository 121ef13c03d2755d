/-
# How far a merge has come

The abstract machine behind the tasks of `Schedule`: what each task has done, without the
strings.  A group is queued, is being handed over (and to how many buckets) or is handed over; a
bucket is parked in the slot of the group it waits for, is being worked with, or is finished; and
the pool of vectors says how many input tasks may be spawned.

Three things are proved of it.  The vectors are accounted for and a chance to spawn an input task
is never missed (`Valid`, `move_valid`): an input task is only not spawned because too few
vectors are available or because the value changed under the exchange, and whoever changed it
tries again.  So when nothing can move, everything is done (`finished_of_quiescent`).  And from
wherever the machine is, it can be brought there (`exists_quiescent`).

It is not true that every run ends: with an empty queue a loop of `try_spawn_input_processing`
and the input tasks it spawns can reserve and give back the same vectors for as long as the
scheduler lets them take turns.  They do nothing else, and any run can still be completed.
-/
import Mathlib.Algebra.Order.BigOperators.Group.Finset
import Srs.Lib.Bag
import Srs.StringMerging.Schedule

namespace Srs.StringMerging

open Option Finset Nat Function Relation

theorem mergeStringBuckets_eq : mergeStringBuckets = 16 := rfl

/-! ## 1. The machine -/

/-- What a task that works with a bucket is about to do. -/
inductive Phase where
  | take
  | process
  | returnStrings
  | spawn (phase : SpawnPhase)

/-- Where a bucket is, and the index of the next group it has to add. -/
inductive Place where
  | parked (next : Nat)
  | running (next : Nat) (phase : Phase)
  | finished

structure Progress where
  /-- how many groups were taken off the queue -/
  popped : Nat
  /-- for each of them, how many buckets were handed their strings; one more when its task is
  done -/
  handed : Nat → Nat
  place : Fin mergeStringBuckets → Place
  spawner : Option SpawnPhase
  inputs : Nat
  idle : Nat
  available : Nat

inductive Actor where
  | spawner
  | input
  | unreserve
  | group (index : Nat)
  | bucket (index : Fin mergeStringBuckets)

namespace Progress

variable (n : Nat) (p : Progress)

/-- The strings of the group were put into the slot for the bucket. -/
def Handed (group : Nat) (bucket : Fin mergeStringBuckets) : Prop :=
  group < p.popped ∧ bucket.val < p.handed group

instance (group : Nat) (bucket : Fin mergeStringBuckets) : Decidable (p.Handed group bucket) :=
  inferInstanceAs (Decidable (_ ∧ _))

/-- A step of `try_spawn_input_processing`. -/
def spawnMove : SpawnPhase → Progress × Option SpawnPhase
  | .load =>
    if p.available < mergeStringBuckets then (p, none)
    else (p, some (.compareExchange p.available))
  | .compareExchange available =>
    if p.available = available then
      ({ p with available := p.available - mergeStringBuckets, inputs := p.inputs + 1 }, some .load)
    else (p, none)

def Enabled : Actor → Prop
  | .spawner => p.spawner ≠ none
  | .input => 0 < p.inputs
  | .unreserve => 0 < p.idle
  | .group g => g < p.popped ∧ p.handed g ≤ mergeStringBuckets
  | .bucket b => ∃ next phase, p.place b = .running next phase

/-- A bucket moves to another place. -/
def setPlace (b : Fin mergeStringBuckets) (place : Place) : Progress :=
  { p with place := update p.place b place }

/-- What an enabled actor does in one step. -/
def move : Actor → Progress
  | .spawner =>
    match p.spawner with
    | none => p
    | some phase => { (p.spawnMove phase).1 with spawner := (p.spawnMove phase).2 }
  | .input =>
    if p.popped < n then
      { p with
        inputs := p.inputs - 1
        popped := p.popped + 1
        handed := update p.handed p.popped 0 }
    else { p with inputs := p.inputs - 1, idle := p.idle + 1 }
  | .unreserve => { p with idle := p.idle - 1, available := p.available + mergeStringBuckets }
  | .group g =>
    let p' := { p with handed := update p.handed g (p.handed g + 1) }
    if h : p.handed g < mergeStringBuckets then
      match p.place ⟨p.handed g, h⟩ with
      | .parked next => if next = g then p'.setPlace ⟨p.handed g, h⟩ (.running g .take) else p'
      | _ => p'
    else p'
  | .bucket b =>
    match p.place b with
    | .running next .take =>
      if next < n then
        if p.Handed next b then p.setPlace b (.running next .process)
        else p.setPlace b (.parked next)
      else p.setPlace b .finished
    | .running next .process => p.setPlace b (.running next .returnStrings)
    | .running next .returnStrings =>
      { p with available := p.available + 1 }.setPlace b (.running next (.spawn .load))
    | .running next (.spawn phase) =>
      match p.spawnMove phase with
      | (p', some phase) => p'.setPlace b (.running next (.spawn phase))
      | (p', none) => p'.setPlace b (.running (next + 1) .take)
    | _ => p

/-- The start: all groups are queued, all buckets wait for the first. -/
def start (capacity : Nat) : Progress where
  popped := 0
  handed _ := 0
  place _ := .parked 0
  spawner := some .load
  inputs := 0
  idle := 0
  available := capacity

end Progress

/-! ## 2. What holds in every state -/

namespace Place

variable (n : Nat)

/-- How many groups' strings were taken out of the bucket's slots. -/
def taken : Place → Nat
  | .parked next => next
  | .running next .take => next
  | .running next _ => next + 1
  | .finished => n

/-- How many groups' strings were added to the bucket. -/
def processed : Place → Nat
  | .parked next => next
  | .running next .take => next
  | .running next .process => next
  | .running next _ => next + 1
  | .finished => n

/-- How many vectors were given back to the pool. -/
def returned : Place → Nat
  | .parked next => next
  | .running next (.spawn _) => next + 1
  | .running next _ => next
  | .finished => n

/-- The phase of the spawn loop, if the bucket's task is in it. -/
def spawning : Place → Option SpawnPhase
  | .running _ (.spawn phase) => some phase
  | _ => none

/-- The next group exists, where that is already known. -/
def InBounds : Place → Prop
  | .parked next => next < n
  | .running next .take => next ≤ n
  | .running next _ => next < n
  | .finished => True

theorem returned_le_taken : ∀ place : Place, place.returned n ≤ place.taken n
  | .parked _ => le_refl _
  | .running _ .take => le_refl _
  | .running next .process => le_succ next
  | .running next .returnStrings => le_succ next
  | .running _ (.spawn _) => le_refl _
  | .finished => le_refl _

theorem processed_le_taken : ∀ place : Place, place.processed n ≤ place.taken n
  | .parked _ => le_refl _
  | .running _ .take => le_refl _
  | .running next .process => le_succ next
  | .running _ .returnStrings => le_refl _
  | .running _ (.spawn _) => le_refl _
  | .finished => le_refl _

theorem eq_running_of_spawning {place : Place} {phase : SpawnPhase}
    (h : place.spawning = some phase) : ∃ next, place = .running next (.spawn phase) := by
  cases place with
  | parked next => cases h
  | finished => cases h
  | running next ph =>
    cases ph with
    | spawn ph =>
      cases h
      exact ⟨next, rfl⟩
    | take => cases h
    | process => cases h
    | returnStrings => cases h

end Place

namespace Progress

/-- A spawn loop that will reserve vectors, if the count stays what it is. -/
def WillReserve (p : Progress) (phase : Option SpawnPhase) : Prop :=
  phase = some .load ∨ phase = some (.compareExchange p.available)

/-- Vectors that are in use for the groups taken off the queue. -/
def outstanding (n : Nat) (p : Progress) : Nat := ∑ b, (p.popped - (p.place b).returned n)

/-- **The invariant.** -/
structure Valid (n capacity : Nat) (p : Progress) : Prop where
  popped_le : p.popped ≤ n
  inBounds : ∀ b, (p.place b).InBounds n
  /-- a bucket only waits for strings that are not there -/
  waiting : ∀ b next, p.place b = .parked next → ¬ p.Handed next b
  /-- strings are only taken that were handed over -/
  taken : ∀ b g, g < (p.place b).taken n → p.Handed g b
  /-- every vector is available, reserved or in use -/
  accounted : p.available + mergeStringBuckets * (p.inputs + p.idle) + p.outstanding n = capacity
  /-- while groups are queued, too few vectors are available or somebody is about to reserve -/
  awake : p.popped = n ∨ p.available < mergeStringBuckets ∨ p.WillReserve p.spawner
    ∨ ∃ b, p.WillReserve (p.place b).spawning
  idle_done : 0 < p.idle → p.popped = n
  /-- a value that is to be exchanged was found large enough -/
  loaded : ∀ available, (p.spawner = some (.compareExchange available)
    ∨ ∃ b, (p.place b).spawning = some (.compareExchange available)) →
    mergeStringBuckets ≤ available

/-! ## 3. Every step keeps the invariant -/

section Moves

variable {n capacity : Nat} {p : Progress}

@[simp] theorem setPlace_popped (b : Fin mergeStringBuckets) (x : Place) :
    (p.setPlace b x).popped = p.popped := rfl

@[simp] theorem setPlace_self (b : Fin mergeStringBuckets) (x : Place) :
    (p.setPlace b x).place b = x := by
  simp [setPlace]

variable {b : Fin mergeStringBuckets} {next g : Nat}

@[simp] theorem setPlace_of_ne {b' : Fin mergeStringBuckets} (h : b' ≠ b) (x : Place) :
    (p.setPlace b x).place b' = p.place b' := by
  simp [setPlace, h]

@[simp] theorem handed_setPlace (b b' : Fin mergeStringBuckets) (x : Place) (g : Nat) :
    (p.setPlace b x).Handed g b' ↔ p.Handed g b' := Iff.rfl

/-- What one bucket contributes to the vectors in use. -/
theorem outstanding_setPlace (b : Fin mergeStringBuckets) (x : Place) :
    (p.setPlace b x).outstanding n + (p.popped - (p.place b).returned n)
      = p.outstanding n + (p.popped - x.returned n) := by
  have hnew := Bag.sum_update (mem_univ b) (fun _ y => p.popped - y.returned n) p.place x
  have hold := Bag.sum_eq (mem_univ b) (fun _ y => p.popped - y.returned n) p.place
  simp only [outstanding, setPlace]
  omega

section

variable (h : Valid n capacity p)
include h

theorem Valid.taken_le (b : Fin mergeStringBuckets) :
    (p.place b).taken n ≤ p.popped := by
  by_contra hlt
  have := (h.taken b p.popped (by omega)).1
  omega

theorem Valid.returned_le (b : Fin mergeStringBuckets) :
    (p.place b).returned n ≤ p.popped :=
  le_trans (Place.returned_le_taken n _) (h.taken_le b)

/-- A bucket moves on, and the pool changes with it. -/
theorem Valid.setPlace (b : Fin mergeStringBuckets) {x : Place}
    {available inputs : Nat} (hbounds : x.InBounds n)
    (hwaiting : ∀ next, x = .parked next → ¬ p.Handed next b)
    (htaken : ∀ g, g < x.taken n → p.Handed g b)
    (haccounted : available + mergeStringBuckets * inputs + (p.popped - x.returned n)
      = p.available + mergeStringBuckets * p.inputs + (p.popped - (p.place b).returned n))
    (hawake : p.popped = n ∨ available < mergeStringBuckets
      ∨ (available = p.available ∧ (p.WillReserve p.spawner
        ∨ ∃ c, c ≠ b ∧ p.WillReserve (p.place c).spawning))
      ∨ x.spawning = some .load ∨ x.spawning = some (.compareExchange available))
    (hloaded : ∀ v, x.spawning = some (.compareExchange v) → mergeStringBuckets ≤ v) :
    Valid n capacity ({ p with available := available, inputs := inputs }.setPlace b x) := by
  have hout := @outstanding_setPlace n p b x
  refine ⟨h.popped_le, ?_, ?_, ?_, ?_, ?_, h.idle_done, ?_⟩
  · intro c
    by_cases hc : c = b
    · subst hc
      rw [setPlace_self]
      exact hbounds
    · rw [setPlace_of_ne hc]
      exact h.inBounds c
  · intro c next hplace
    by_cases hc : c = b
    · subst hc
      rw [setPlace_self] at hplace
      exact hwaiting next hplace
    · rw [setPlace_of_ne hc] at hplace
      exact h.waiting c next hplace
  · intro c g hg
    by_cases hc : c = b
    · subst hc
      rw [setPlace_self] at hg
      exact htaken g hg
    · rw [setPlace_of_ne hc] at hg
      exact h.taken c g hg
  · have hacc := h.accounted
    have heq : ({ p with available := available, inputs := inputs }.setPlace b x).outstanding n
        = (p.setPlace b x).outstanding n := rfl
    rw [heq]
    change available + mergeStringBuckets * (inputs + p.idle) + _ = capacity
    rw [Nat.mul_add] at hacc ⊢
    omega
  · rcases hawake with hn | hlt | ⟨rfl, hs | ⟨c, hc, hw⟩⟩ | hload | hload
    · exact .inl hn
    · exact .inr (.inl hlt)
    · exact .inr (.inr (.inl hs))
    · exact .inr (.inr (.inr ⟨c, by rw [setPlace_of_ne hc]; exact hw⟩))
    · exact .inr (.inr (.inr ⟨b, by rw [setPlace_self]; exact .inl hload⟩))
    · exact .inr (.inr (.inr ⟨b, by rw [setPlace_self]; exact .inr hload⟩))
  · rintro v (hs | ⟨c, hv⟩)
    · exact h.loaded v (.inl hs)
    · by_cases hc : c = b
      · subst hc
        rw [setPlace_self] at hv
        exact hloaded v hv
      · rw [setPlace_of_ne hc] at hv
        exact h.loaded v (.inr ⟨c, hv⟩)

/-- Who is about to reserve, when it is not the bucket's task. -/
theorem Valid.awake_of_not_willReserve
    (hb : ¬ p.WillReserve (p.place b).spawning) :
    p.popped = n ∨ p.available < mergeStringBuckets ∨ (p.available = p.available ∧
      (p.WillReserve p.spawner ∨ ∃ c, c ≠ b ∧ p.WillReserve (p.place c).spawning)) := by
  rcases h.awake with hn | hlt | hs | ⟨c, hc⟩
  · exact .inl hn
  · exact .inr (.inl hlt)
  · exact .inr (.inr ⟨rfl, .inl hs⟩)
  · exact .inr (.inr ⟨rfl, .inr ⟨c, fun e => hb (e ▸ hc), hc⟩⟩)

/-- A bucket's task goes on, outside the spawn loop, without touching the pool. -/
theorem Valid.advance (b : Fin mergeStringBuckets) {x : Place}
    (hspawning : (p.place b).spawning = none) (hx : x.spawning = none) (hbounds : x.InBounds n)
    (hwaiting : ∀ next, x = .parked next → ¬ p.Handed next b)
    (htaken : ∀ g, g < x.taken n → p.Handed g b)
    (hreturned : x.returned n = (p.place b).returned n) : Valid n capacity (p.setPlace b x) := by
  refine @Valid.setPlace n capacity p h b x p.available p.inputs hbounds hwaiting htaken
    (by rw [hreturned]) ?_ ?_
  · have hnot : ¬ p.WillReserve (p.place b).spawning := by
      rw [hspawning]
      rintro (e | e) <;> cases e
    rcases h.awake_of_not_willReserve hnot with hn | hlt | hw
    · exact .inl hn
    · exact .inr (.inl hlt)
    · exact .inr (.inr (.inl hw))
  · intro v hv
    rw [hx] at hv
    cases hv

theorem move_bucket_take
    (hb : p.place b = .running next .take) : Valid n capacity (p.move n (.bucket b)) := by
  have hbounds : next ≤ n := by
    have := h.inBounds b
    rwa [hb] at this
  have htaken : ∀ g, g < next → p.Handed g b := by
    intro g hg
    refine h.taken b g ?_
    rwa [hb]
  have hspawning : (p.place b).spawning = none := by rw [hb]; rfl
  simp only [move, hb]
  split
  · rename_i hlt
    split
    · rename_i hhanded
      refine h.advance b hspawning rfl hlt (fun _ he => by cases he) ?_ (by rw [hb]; rfl)
      intro g hg
      rcases Nat.lt_succ_iff_lt_or_eq.mp hg with hg | rfl
      · exact htaken g hg
      · exact hhanded
    · rename_i hnot
      refine h.advance b hspawning rfl hlt ?_ htaken (by rw [hb]; rfl)
      intro k he
      cases he
      exact hnot
  · rename_i hge
    have heq : next = n := by omega
    subst heq
    exact h.advance b hspawning rfl trivial (fun _ he => by cases he) htaken (by rw [hb]; rfl)

theorem move_bucket_process
    (hb : p.place b = .running next .process) : Valid n capacity (p.move n (.bucket b)) := by
  have hbounds := h.inBounds b
  rw [hb] at hbounds
  have htaken : ∀ g, g < next + 1 → p.Handed g b := by
    intro g hg
    refine h.taken b g ?_
    rwa [hb]
  simp only [move, hb]
  exact h.advance b (by rw [hb]; rfl) rfl hbounds (fun _ he => by cases he) htaken (by rw [hb]; rfl)

theorem move_bucket_return
    (hb : p.place b = .running next .returnStrings) : Valid n capacity (p.move n (.bucket b)) := by
  have hbounds := h.inBounds b
  have hle := h.taken_le b
  rw [hb] at hbounds hle
  have htaken : ∀ g, g < next + 1 → p.Handed g b := by
    intro g hg
    refine h.taken b g ?_
    rwa [hb]
  simp only [move, hb]
  refine h.setPlace b (x := .running next (.spawn .load)) hbounds (fun _ he => by cases he) htaken
    ?_ (.inr (.inr (.inr (.inl rfl)))) (fun v hv => by cases hv)
  simp only [hb, Place.returned, Place.taken] at hle ⊢
  omega

end

/-- What the spawn loop does to the pool: nothing, or it reserves the vectors for an input task
that it spawns. -/
theorem spawnMove_cases (phase : SpawnPhase) :
    (phase = .load ∧ p.available < mergeStringBuckets ∧ p.spawnMove phase = (p, none))
      ∨ (phase = .load ∧ mergeStringBuckets ≤ p.available
        ∧ p.spawnMove phase = (p, some (.compareExchange p.available)))
      ∨ (phase = .compareExchange p.available ∧ p.spawnMove phase
        = ({ p with available := p.available - mergeStringBuckets, inputs := p.inputs + 1 },
          some .load))
      ∨ (phase ≠ .load ∧ phase ≠ .compareExchange p.available ∧ p.spawnMove phase = (p, none)) := by
  cases phase with
  | load =>
    by_cases hlt : p.available < mergeStringBuckets
    · exact .inl ⟨rfl, hlt, by simp only [spawnMove, if_pos hlt]⟩
    · exact .inr (.inl ⟨rfl, by omega, by simp only [spawnMove, if_neg hlt]⟩)
  | compareExchange v =>
    by_cases hv : p.available = v
    · subst hv
      exact .inr (.inr (.inl ⟨rfl, by simp only [spawnMove, if_true]⟩))
    · refine .inr (.inr (.inr ⟨by simp, ?_, by simp only [spawnMove, if_neg hv]⟩))
      intro he
      exact hv (SpawnPhase.compareExchange.inj he).symm

theorem move_bucket_spawn (h : Valid n capacity p)
    {phase : SpawnPhase} (hb : p.place b = .running next (.spawn phase)) :
    Valid n capacity (p.move n (.bucket b)) := by
  have hbounds := h.inBounds b
  rw [hb] at hbounds
  have htaken : ∀ g, g < next + 1 → p.Handed g b := by
    intro g hg
    refine h.taken b g ?_
    rwa [hb]
  have hspawning : (p.place b).spawning = some phase := by rw [hb]; rfl
  have hreturned : (p.place b).returned n = next + 1 := by rw [hb]; rfl
  simp only [move, hb]
  rcases @spawnMove_cases p phase with ⟨-, hlt, he⟩ | ⟨-, hge, he⟩ | ⟨hph, he⟩ | ⟨h1, h2, he⟩
  · rw [he]
    refine h.setPlace b (x := .running (next + 1) .take) hbounds (fun _ he => by cases he) htaken ?_
      (.inr (.inl hlt)) (fun v hv => by cases hv)
    rw [hreturned]
    rfl
  · rw [he]
    refine h.setPlace b (x := .running next (.spawn (.compareExchange p.available))) hbounds
      (fun _ he => by cases he) htaken ?_ (.inr (.inr (.inr (.inr rfl)))) ?_
    · rw [hreturned]
      rfl
    · intro v hv
      cases hv
      exact hge
  · rw [he]
    have hge : mergeStringBuckets ≤ p.available :=
      h.loaded p.available (.inr ⟨b, by rw [hspawning, hph]⟩)
    refine h.setPlace b (x := .running next (.spawn .load)) hbounds (fun _ he => by cases he) htaken
      ?_ (.inr (.inr (.inr (.inl rfl)))) (fun v hv => by cases hv)
    rw [hreturned]
    simp only [Place.returned, Nat.mul_add]
    omega
  · rw [he]
    have hnot : ¬ p.WillReserve (p.place b).spawning := by
      rw [hspawning]
      rintro (e | e)
      · exact h1 (some.inj e)
      · exact h2 (some.inj e)
    refine h.setPlace b (x := .running (next + 1) .take) hbounds (fun _ he => by cases he) htaken ?_ ?_
      (fun v hv => by cases hv)
    · rw [hreturned]
      rfl
    · rcases h.awake_of_not_willReserve hnot with hn | hlt | hw
      · exact .inl hn
      · exact .inr (.inl hlt)
      · exact .inr (.inr (.inl hw))

theorem move_spawner (h : Valid n capacity p) : Valid n capacity (p.move n .spawner) := by
  cases hs : p.spawner with
  | none => simpa only [move, hs] using h
  | some phase =>
    simp only [move, hs]
    rcases @spawnMove_cases p phase with ⟨-, hlt, he⟩ | ⟨-, hge, he⟩ | ⟨hph, he⟩ | ⟨h1, h2, he⟩
    · rw [he]
      refine ⟨h.popped_le, h.inBounds, h.waiting, h.taken, h.accounted, .inr (.inl hlt),
        h.idle_done, ?_⟩
      rintro v (hv | hv)
      · cases hv
      · exact h.loaded v (.inr hv)
    · rw [he]
      refine ⟨h.popped_le, h.inBounds, h.waiting, h.taken, h.accounted,
        .inr (.inr (.inl (.inr rfl))), h.idle_done, ?_⟩
      rintro v (hv | hv)
      · cases hv
        exact hge
      · exact h.loaded v (.inr hv)
    · rw [he]
      have hge : mergeStringBuckets ≤ p.available :=
        h.loaded p.available (.inl (by rw [hs, hph]))
      refine ⟨h.popped_le, h.inBounds, h.waiting, h.taken, ?_,
        .inr (.inr (.inl (.inl rfl))), h.idle_done, ?_⟩
      · have hacc := h.accounted
        change p.available - mergeStringBuckets + mergeStringBuckets * (p.inputs + 1 + p.idle)
          + p.outstanding n = capacity
        simp only [Nat.mul_add] at hacc ⊢
        omega
      · rintro v (hv | hv)
        · cases hv
        · exact h.loaded v (.inr hv)
    · rw [he]
      refine ⟨h.popped_le, h.inBounds, h.waiting, h.taken, h.accounted, ?_, h.idle_done, ?_⟩
      · rcases h.awake with hn | hlt | hw | hw
        · exact .inl hn
        · exact .inr (.inl hlt)
        · rw [hs] at hw
          rcases hw with e | e
          · exact absurd (some.inj e) h1
          · exact absurd (some.inj e) h2
        · exact .inr (.inr (.inr hw))
      · rintro v (hv | hv)
        · cases hv
        · exact h.loaded v (.inr hv)

/-- Taking a group off the queue uses a vector for each bucket. -/
theorem move_input (h : Valid n capacity p) (hin : 0 < p.inputs) :
    Valid n capacity (p.move n .input) := by
  have hacc := h.accounted
  simp only [move]
  split
  · rename_i hlt
    have hhanded : ∀ g b, ({ p with
        inputs := p.inputs - 1
        popped := p.popped + 1
        handed := update p.handed p.popped 0 } : Progress).Handed g b ↔ p.Handed g b := by
      intro g b
      simp only [Handed]
      by_cases hg : g = p.popped
      · simp [hg]
      · rw [update_of_ne hg]
        omega
    have hidle : p.idle = 0 := by
      by_contra hne
      have := h.idle_done (by omega)
      omega
    refine ⟨hlt, h.inBounds, fun b next hb => (hhanded next b).not.mpr (h.waiting b next hb),
      fun b g hg => (hhanded g b).mpr (h.taken b g hg), ?_, ?_, ?_, h.loaded⟩
    · have hsum : ∑ b, (p.popped + 1 - (p.place b).returned n)
          = p.outstanding n + mergeStringBuckets := by
        have heach : ∀ b ∈ univ, p.popped + 1 - (p.place b).returned n
            = (p.popped - (p.place b).returned n) + 1 := by
          intro b _
          have := h.returned_le b
          omega
        rw [sum_congr rfl heach, sum_add_distrib]
        simp [outstanding]
      change p.available + mergeStringBuckets * (p.inputs - 1 + p.idle)
        + ∑ b, (p.popped + 1 - (p.place b).returned n) = capacity
      rw [hsum]
      simp only [mergeStringBuckets_eq] at hacc ⊢
      omega
    · rcases h.awake with hn | hlt' | hw
      · omega
      · exact .inr (.inl hlt')
      · exact .inr (.inr hw)
    · intro hpos
      change 0 < p.idle at hpos
      omega
  · rename_i hge
    have hn : p.popped = n := by
      have := h.popped_le
      omega
    refine ⟨h.popped_le, h.inBounds, h.waiting, h.taken, ?_, .inl hn, fun _ => hn, h.loaded⟩
    change p.available + mergeStringBuckets * (p.inputs - 1 + (p.idle + 1)) + p.outstanding n
      = capacity
    have he : p.inputs - 1 + (p.idle + 1) = p.inputs + p.idle := by omega
    rw [he]
    exact hacc

theorem move_unreserve (h : Valid n capacity p) (hidle : 0 < p.idle) :
    Valid n capacity (p.move n .unreserve) := by
  have hacc := h.accounted
  refine ⟨h.popped_le, h.inBounds, h.waiting, h.taken, ?_, .inl (h.idle_done hidle),
    fun _ => h.idle_done hidle, h.loaded⟩
  change p.available + mergeStringBuckets + mergeStringBuckets * (p.inputs + (p.idle - 1))
    + p.outstanding n = capacity
  simp only [mergeStringBuckets_eq] at hacc ⊢
  omega

/-- The strings of one more bucket are handed over. -/
def handOver (p : Progress) (g : Nat) : Progress :=
  { p with handed := update p.handed g (p.handed g + 1) }

/-- The bucket that waited for the strings goes on. -/
theorem move_group_of_parked (hlt : p.handed g < mergeStringBuckets)
    (h : p.place ⟨p.handed g, hlt⟩ = .parked g) :
    p.move n (.group g) = (p.handOver g).setPlace ⟨p.handed g, hlt⟩ (.running g .take) := by
  simp only [move, dif_pos hlt, h, if_true, handOver]

/-- No bucket waited for the strings. -/
theorem move_group_of_not_parked
    (h : ∀ hlt : p.handed g < mergeStringBuckets, p.place ⟨p.handed g, hlt⟩ ≠ .parked g) :
    p.move n (.group g) = p.handOver g := by
  by_cases hlt : p.handed g < mergeStringBuckets
  · simp only [move, dif_pos hlt, handOver]
    cases hp : p.place ⟨p.handed g, hlt⟩ with
    | parked next =>
      have hne : ¬ next = g := fun e => h hlt (by rw [hp, e])
      exact if_neg hne
    | running next phase => rfl
    | finished => rfl
  · simp only [move, dif_neg hlt, handOver]

/-- The next bucket is handed its strings. -/
theorem handed_group (hg : g < p.popped) {g' : Nat} :
    (p.handOver g).Handed g' b ↔ p.Handed g' b ∨ (g' = g ∧ b.val = p.handed g) := by
  simp only [Handed, handOver]
  by_cases h : g' = g
  · subst h
    rw [update_self]
    omega
  · rw [update_of_ne h]
    simp [h]

theorem move_group (h : Valid n capacity p) (hg : g < p.popped) :
    Valid n capacity (p.move n (.group g)) := by
  by_cases hex : ∃ hlt : p.handed g < mergeStringBuckets, p.place ⟨p.handed g, hlt⟩ = .parked g
  · obtain ⟨hlt, hplace⟩ := hex
    rw [move_group_of_parked hlt hplace]
    -- first the bucket leaves the slot, then the strings are in it
    have hwake : Valid n capacity (p.setPlace ⟨p.handed g, hlt⟩ (.running g .take)) := by
      have hb := h.inBounds ⟨p.handed g, hlt⟩
      rw [hplace] at hb
      refine h.advance _ (by rw [hplace]; rfl) rfl (le_of_lt hb) (fun _ he => by cases he)
        ?_ (by rw [hplace]; rfl)
      intro g' hg'
      refine h.taken ⟨p.handed g, hlt⟩ g' ?_
      rw [hplace]
      exact hg'
    refine ⟨h.popped_le, hwake.inBounds, ?_, ?_, hwake.accounted, hwake.awake, h.idle_done,
      hwake.loaded⟩
    · intro b k hb hh
      rcases (handed_group hg).mp hh with hh | ⟨rfl, hval⟩
      · exact hwake.waiting b k hb hh
      · have hbe : b = ⟨p.handed k, hlt⟩ := Fin.ext hval
        subst hbe
        rw [setPlace_self] at hb
        cases hb
    · intro b g' hg'
      exact (handed_group hg).mpr (.inl (hwake.taken b g' hg'))
  · have hnot := not_exists.mp hex
    rw [move_group_of_not_parked hnot]
    refine ⟨h.popped_le, h.inBounds, ?_, ?_, h.accounted, h.awake, h.idle_done, h.loaded⟩
    · intro b next hb hh
      rcases (handed_group hg).mp hh with hh | ⟨rfl, hval⟩
      · exact h.waiting b next hb hh
      · have hlt : p.handed next < mergeStringBuckets := hval ▸ b.isLt
        have hbe : b = ⟨p.handed next, hlt⟩ := Fin.ext hval
        exact hnot hlt (hbe ▸ hb)
    · intro b g' hg'
      exact (handed_group hg).mpr (.inl (h.taken b g' hg'))

/-- **Every step keeps the invariant.** -/
theorem move_valid (h : Valid n capacity p) {a : Actor} (ha : p.Enabled a) :
    Valid n capacity (p.move n a) := by
  cases a with
  | spawner => exact move_spawner h
  | input => exact move_input h ha
  | unreserve => exact move_unreserve h ha
  | group g => exact move_group h ha.1
  | bucket b =>
    obtain ⟨next, phase, hb⟩ := ha
    cases phase with
    | take => exact move_bucket_take h hb
    | process => exact move_bucket_process h hb
    | returnStrings => exact move_bucket_return h hb
    | spawn phase => exact move_bucket_spawn h hb

theorem valid_start (hn : 0 < n) : Valid n capacity (start capacity) := by
  refine ⟨zero_le n, fun _ => hn, ?_, ?_, ?_, .inr (.inr (.inl (.inl rfl))), ?_, ?_⟩
  · intro b next _ hh
    exact absurd hh.1 (not_lt_zero _)
  · intro b g hg
    exact absurd hg (not_lt_zero _)
  · simp [start, outstanding]
  · intro hpos
    exact absurd hpos (lt_irrefl 0)
  · rintro v (hv | ⟨b, hv⟩) <;> cases hv

end Moves

/-! ## 4. When nothing moves, everything is done -/

/-- No task is left. -/
def Quiescent (p : Progress) : Prop := ∀ a, ¬ p.Enabled a

/-- **A machine that has come to rest is finished**: all buckets have all groups, and every
vector is back in the pool. -/
theorem finished_of_quiescent {n capacity : Nat} {p : Progress} (h : Valid n capacity p)
    (hcap : mergeStringBuckets ≤ capacity) (hq : p.Quiescent) :
    p.popped = n ∧ p.available = capacity ∧ ∀ b, p.place b = .finished := by
  have hhanded : ∀ g b, g < p.popped → p.Handed g b := by
    intro g b hg
    refine ⟨hg, ?_⟩
    have hnot := hq (.group g)
    simp only [Enabled, not_and, not_le] at hnot
    exact lt_trans b.isLt (hnot hg)
  -- a parked bucket waits for a group that is still queued
  have hplaces : ∀ b, p.place b = .finished ∨ ∃ next, p.place b = .parked next ∧ p.popped ≤ next := by
    intro b
    cases hb : p.place b with
    | parked next =>
      refine .inr ⟨next, rfl, ?_⟩
      by_contra hlt
      exact h.waiting b next hb (hhanded next b (by omega))
    | running next phase => exact absurd ⟨next, phase, hb⟩ (hq (.bucket b))
    | finished => exact .inl rfl
  have hout : p.outstanding n = 0 := by
    refine sum_eq_zero ?_
    intro b _
    rcases hplaces b with hb | ⟨next, hb, hle⟩
    · have := h.popped_le
      simp only [hb, Place.returned]
      omega
    · simp only [hb, Place.returned]
      omega
  have hin : p.inputs = 0 := Nat.eq_zero_of_not_pos (hq .input)
  have hidle : p.idle = 0 := Nat.eq_zero_of_not_pos (hq .unreserve)
  have havail : p.available = capacity := by
    have := h.accounted
    rw [hin, hidle, hout] at this
    simpa using this
  have hpopped : p.popped = n := by
    rcases h.awake with hn | hlt | hw | ⟨b, hw⟩
    · exact hn
    · omega
    · have hs : p.spawner = none := not_not.mp (hq .spawner)
      rw [hs] at hw
      rcases hw with e | e <;> cases e
    · rcases hplaces b with hb | ⟨next, hb, -⟩ <;>
      · rw [hb] at hw
        rcases hw with e | e <;> cases e
  refine ⟨hpopped, havail, ?_⟩
  intro b
  rcases hplaces b with hb | ⟨next, hb, hle⟩
  · exact hb
  · have hlt := h.inBounds b
    rw [hb] at hlt
    simp only [Place.InBounds] at hlt
    omega

/-! ## 5. Everything can be brought to rest -/

/-- What a bucket has left to do. -/
def rank (n : Nat) : Place → Nat
  | .parked next => 6 * (n - next)
  | .running next .take => 6 * (n - next) + 1
  | .running next .process => 6 * (n - next) - 1
  | .running next .returnStrings => 6 * (n - next) - 2
  | .running next (.spawn _) => 6 * (n - next) - 3
  | .finished => 0

/-- What is left to do, apart from reserving vectors and giving them back unused. -/
def work (n : Nat) (p : Progress) : Nat :=
  2 * ((mergeStringBuckets + 2) * (n - p.popped)
      + ∑ g ∈ range p.popped, (mergeStringBuckets + 1 - p.handed g))
    + ∑ b, rank n (p.place b) + if p.spawner = none then 0 else 1

theorem sum_rank_setPlace (n : Nat) (p : Progress) (b : Fin mergeStringBuckets) (x : Place) :
    ∑ c, rank n ((p.setPlace b x).place c) + rank n (p.place b)
      = ∑ c, rank n (p.place c) + rank n x := by
  have hnew := Bag.sum_update (mem_univ b) (fun _ y => rank n y) p.place x
  have hold := Bag.sum_eq (mem_univ b) (fun _ y => rank n y) p.place
  simp only [setPlace]
  omega

theorem work_setPlace {n : Nat} {p : Progress} {b : Fin mergeStringBuckets} {x : Place}
    (h : rank n x < rank n (p.place b)) : work n (p.setPlace b x) < work n p := by
  have hsum := sum_rank_setPlace n p b x
  simp only [work]
  change 2 * ((mergeStringBuckets + 2) * (n - p.popped)
      + ∑ g ∈ range p.popped, (mergeStringBuckets + 1 - p.handed g))
    + ∑ c, rank n ((p.setPlace b x).place c) + (if p.spawner = none then 0 else 1) < _
  omega

/-- One step of one actor. -/
def Moves (n : Nat) (p q : Progress) : Prop := ∃ a, p.Enabled a ∧ q = p.move n a

section Rest

variable {n capacity : Nat} {p : Progress}

/-- A bucket that is not in the spawn loop has less to do after its step. -/
theorem work_move_bucket (h : Valid n capacity p) {b : Fin mergeStringBuckets} {next : Nat}
    {phase : Phase} (hb : p.place b = .running next phase)
    (hphase : (p.place b).spawning = none) : work n (p.move n (.bucket b)) < work n p := by
  have hbounds := h.inBounds b
  rw [hb] at hbounds
  cases phase with
  | take =>
    simp only [Place.InBounds] at hbounds
    simp only [move, hb]
    split
    · split
      · exact work_setPlace (by simp only [hb, rank]; omega)
      · exact work_setPlace (by simp only [hb, rank]; omega)
    · exact work_setPlace (by simp only [hb, rank]; omega)
  | process =>
    simp only [Place.InBounds] at hbounds
    simp only [move, hb]
    exact work_setPlace (by simp only [hb, rank]; omega)
  | returnStrings =>
    simp only [Place.InBounds] at hbounds
    simp only [move, hb]
    exact @work_setPlace n { p with available := p.available + 1 } b _
      (by simp only [hb, rank]; omega)
  | spawn phase =>
    rw [hb] at hphase
    cases hphase

theorem sum_handed_update {g : Nat} (hg : g < p.popped) (hle : p.handed g ≤ mergeStringBuckets) :
    ∑ g' ∈ range p.popped,
        (mergeStringBuckets + 1 - update p.handed g (p.handed g + 1) g') + 1
      = ∑ g' ∈ range p.popped, (mergeStringBuckets + 1 - p.handed g') := by
  have hmem : g ∈ range p.popped := mem_range.mpr hg
  have hnew := Bag.sum_update hmem (fun _ k => mergeStringBuckets + 1 - k) p.handed (p.handed g + 1)
  have hold := Bag.sum_eq hmem (fun _ k => mergeStringBuckets + 1 - k) p.handed
  omega

theorem work_move_group {g : Nat} (hg : g < p.popped) (hle : p.handed g ≤ mergeStringBuckets) :
    work n (p.move n (.group g)) < work n p := by
  have hsum := sum_handed_update hg hle
  have hplain : work n (p.handOver g) + 2 = work n p := by
    have hsum' : ∑ g' ∈ range (p.handOver g).popped,
          (mergeStringBuckets + 1 - (p.handOver g).handed g') + 1
        = ∑ g' ∈ range p.popped, (mergeStringBuckets + 1 - p.handed g') := hsum
    have hpopped : (p.handOver g).popped = p.popped := rfl
    have hplace : (p.handOver g).place = p.place := rfl
    have hspawner : (p.handOver g).spawner = p.spawner := rfl
    simp only [work, hpopped, hplace, hspawner] at hsum' ⊢
    omega
  by_cases hex : ∃ hlt : p.handed g < mergeStringBuckets, p.place ⟨p.handed g, hlt⟩ = .parked g
  · -- the bucket that is woken up has one step more to do, the group has one less
    obtain ⟨hlt, hplace⟩ := hex
    rw [move_group_of_parked hlt hplace]
    have hrank := sum_rank_setPlace n (p.handOver g) ⟨p.handed g, hlt⟩ (.running g .take)
    have hr : rank n ((p.handOver g).place ⟨p.handed g, hlt⟩) + 1 = rank n (.running g .take) := by
      rw [show (p.handOver g).place = p.place from rfl, hplace]
      rfl
    have hwork : work n ((p.handOver g).setPlace ⟨p.handed g, hlt⟩ (.running g .take))
        = work n (p.handOver g) + 1 := by
      simp only [work]
      change 2 * ((mergeStringBuckets + 2) * (n - (p.handOver g).popped)
          + ∑ g' ∈ range (p.handOver g).popped,
            (mergeStringBuckets + 1 - (p.handOver g).handed g'))
        + ∑ c, rank n (((p.handOver g).setPlace ⟨p.handed g, hlt⟩ (.running g .take)).place c)
        + (if (p.handOver g).spawner = none then 0 else 1) = _
      omega
    omega
  · rw [move_group_of_not_parked (not_exists.mp hex)]
    omega

theorem work_move_input (hlt : p.popped < n) : work n (p.move n .input) < work n p := by
  have hsum : ∑ g ∈ range (p.popped + 1),
        (mergeStringBuckets + 1 - update p.handed p.popped 0 g)
      = ∑ g ∈ range p.popped, (mergeStringBuckets + 1 - p.handed g)
        + (mergeStringBuckets + 1) := by
    rw [sum_range_succ, update_self]
    refine congrArg (· + (mergeStringBuckets + 1)) (sum_congr rfl ?_)
    intro g hg
    have := mem_range.mp hg
    rw [update_of_ne (by omega)]
  simp only [move, if_pos hlt, work, hsum]
  simp only [mergeStringBuckets_eq]
  omega

/-- The phase of an actor that is in the spawn loop. -/
def spawning (p : Progress) : Actor → Option SpawnPhase
  | .spawner => p.spawner
  | .bucket b => (p.place b).spawning
  | _ => none

/-- What is left to reserve by a spawn loop in some phase. -/
def toReserve (p : Progress) : SpawnPhase → Nat
  | .load => 2 * p.available + 1
  | .compareExchange _ => 2 * p.available

variable {a : Actor}

variable {phase : SpawnPhase}

theorem enabled_of_spawning (ha : p.spawning a = some phase) :
    p.Enabled a := by
  cases a with
  | spawner =>
    intro hnone
    simp only [spawning] at ha
    rw [hnone] at ha
    cases ha
  | bucket b =>
    obtain ⟨next, hb⟩ := Place.eq_running_of_spawning ha
    exact ⟨next, _, hb⟩
  | input => cases ha
  | unreserve => cases ha
  | group g => cases ha

/-- A step in the spawn loop leaves it, or there is less to reserve. -/
theorem spawn_step (h : Valid n capacity p) (ha : p.spawning a = some phase) :
    work n (p.move n a) < work n p
      ∨ (work n (p.move n a) = work n p ∧ ∃ phase', (p.move n a).spawning a = some phase'
        ∧ (p.move n a).toReserve phase' < p.toReserve phase) := by
  have hge : phase = .compareExchange p.available → mergeStringBuckets ≤ p.available := by
    rintro rfl
    cases a with
    | spawner => exact h.loaded _ (.inl ha)
    | bucket b => exact h.loaded _ (.inr ⟨b, ha⟩)
    | input => cases ha
    | unreserve => cases ha
    | group g => cases ha
  have hb16 := mergeStringBuckets_eq
  cases a with
  | input => cases ha
  | unreserve => cases ha
  | group g => cases ha
  | spawner =>
    have hs : p.spawner = some phase := ha
    rcases @spawnMove_cases p phase with ⟨-, -, he⟩ | ⟨rfl, -, he⟩ | ⟨hph, he⟩ | ⟨-, -, he⟩
    · refine .inl ?_
      simp [move, hs, he, work]
    · refine .inr ⟨by simp [move, hs, he, work], .compareExchange p.available, ?_, ?_⟩
      · simp [move, hs, he, spawning]
      · simp [move, hs, he, toReserve]
    · have := hge hph
      refine .inr ⟨by simp [move, hs, he, work], .load, ?_, ?_⟩
      · simp [move, hs, he, spawning]
      · subst hph
        simp only [move, hs, he, toReserve]
        omega
    · refine .inl ?_
      simp [move, hs, he, work]
  | bucket b =>
    obtain ⟨next, hb⟩ := Place.eq_running_of_spawning ha
    have hbounds := h.inBounds b
    rw [hb] at hbounds
    simp only [Place.InBounds] at hbounds
    have hsame : ∀ (q : Progress) (x : Place), q.popped = p.popped → q.handed = p.handed →
        q.place = p.place → q.spawner = p.spawner → rank n x = rank n (p.place b) →
        work n (q.setPlace b x) = work n p := by
      intro q x h1 h2 h3 h4 hr
      have hsum := sum_rank_setPlace n q b x
      simp only [work]
      change 2 * ((mergeStringBuckets + 2) * (n - q.popped)
          + ∑ g ∈ range q.popped, (mergeStringBuckets + 1 - q.handed g))
        + ∑ c, rank n ((q.setPlace b x).place c) + (if q.spawner = none then 0 else 1) = _
      rw [h3] at hsum
      rw [h1, h2, h4]
      omega
    rcases @spawnMove_cases p phase with ⟨-, -, he⟩ | ⟨rfl, -, he⟩ | ⟨hph, he⟩ | ⟨-, -, he⟩
    · refine .inl ?_
      simp only [move, hb, he]
      exact work_setPlace (by simp only [hb, rank]; omega)
    · refine .inr ⟨?_, .compareExchange p.available, ?_, ?_⟩
      · simp only [move, hb, he]
        exact hsame p _ rfl rfl rfl rfl (by rw [hb]; rfl)
      · simp [move, hb, he, spawning, Place.spawning]
      · simp [move, hb, he, toReserve, Progress.setPlace]
    · have := hge hph
      refine .inr ⟨?_, .load, ?_, ?_⟩
      · simp only [move, hb, he]
        exact hsame _ _ rfl rfl rfl rfl (by rw [hb]; rfl)
      · simp [move, hb, he, spawning, Place.spawning]
      · subst hph
        simp only [move, hb, he, toReserve, Progress.setPlace]
        omega
    · refine .inl ?_
      simp only [move, hb, he]
      exact work_setPlace (by simp only [hb, rank]; omega)

/-- A spawn loop that runs alone ends. -/
theorem exists_spawn_done : ∀ (bound : Nat) {p : Progress} {phase : SpawnPhase},
    Valid n capacity p → p.spawning a = some phase → p.toReserve phase ≤ bound →
      ∃ q, ReflTransGen (Moves n) p q ∧ Valid n capacity q ∧ work n q < work n p := by
  intro bound
  induction bound using Nat.strongRecOn with
  | _ bound ih =>
    intro p phase h ha hle
    have hen := enabled_of_spawning ha
    have hmove : Moves n p (p.move n a) := ⟨a, hen, rfl⟩
    rcases spawn_step h ha with hlt | ⟨heq, phase', ha', hlt⟩
    · exact ⟨p.move n a, ReflTransGen.single hmove, move_valid h hen, hlt⟩
    · obtain ⟨q, hrun, hq, hwork⟩ := ih ((p.move n a).toReserve phase') (by omega)
        (move_valid h hen) ha' (le_refl _)
      exact ⟨q, ReflTransGen.head hmove hrun, hq, by omega⟩

/-- As long as something can move, some steps leave less to do. -/
theorem exists_less_work (h : Valid n capacity p) (ha : p.Enabled a) :
    ∃ q, ReflTransGen (Moves n) p q ∧ Valid n capacity q
      ∧ (work n q < work n p
        ∨ (work n q = work n p ∧ 2 * q.inputs + q.idle < 2 * p.inputs + p.idle)) := by
  have hmove : ReflTransGen (Moves n) p (p.move n a) :=
    ReflTransGen.single ⟨a, ha, rfl⟩
  have hone : work n (p.move n a) < work n p ∨ (work n (p.move n a) = work n p
      ∧ 2 * (p.move n a).inputs + (p.move n a).idle < 2 * p.inputs + p.idle) →
      ∃ q, ReflTransGen (Moves n) p q ∧ Valid n capacity q ∧ (work n q < work n p
        ∨ (work n q = work n p ∧ 2 * q.inputs + q.idle < 2 * p.inputs + p.idle)) :=
    fun hless => ⟨_, hmove, move_valid h ha, hless⟩
  cases hs : p.spawning a with
  | some phase =>
    obtain ⟨q, hrun, hq, hlt⟩ := exists_spawn_done _ h hs (le_refl _)
    exact ⟨q, hrun, hq, .inl hlt⟩
  | none =>
    cases a with
    | spawner => exact absurd hs ha
    | input =>
      refine hone ?_
      by_cases hlt : p.popped < n
      · exact .inl (work_move_input hlt)
      · have hpos : 0 < p.inputs := ha
        refine .inr ⟨by simp only [move, if_neg hlt, work], ?_⟩
        simp only [move, if_neg hlt]
        omega
    | unreserve =>
      have hpos : 0 < p.idle := ha
      refine hone (.inr ⟨rfl, ?_⟩)
      simp only [move]
      omega
    | group g => exact hone (.inl (work_move_group ha.1 ha.2))
    | bucket b =>
      obtain ⟨next, phase, hb⟩ := ha
      exact hone (.inl (work_move_bucket h hb hs))

/-- **From everywhere the machine can be brought to rest.** -/
theorem exists_quiescent (h : Valid n capacity p) :
    ∃ q, ReflTransGen (Moves n) p q ∧ Valid n capacity q ∧ q.Quiescent := by
  -- the induction is on the work left, then on the input tasks that have nothing to do
  induction hw : work n p using Nat.strongRecOn generalizing p with
  | _ w ihw =>
    induction hi : 2 * p.inputs + p.idle using Nat.strongRecOn generalizing p with
    | _ i ihi =>
      by_cases hq : p.Quiescent
      · exact ⟨p, ReflTransGen.refl, h, hq⟩
      · obtain ⟨a, ha⟩ := not_forall_not.mp hq
        obtain ⟨q, hrun, hv, hless⟩ := exists_less_work h ha
        rcases hless with hlt | ⟨heq, hlt⟩
        · obtain ⟨r, hrun', hv', hr⟩ := ihw (work n q) (by omega) hv rfl
          exact ⟨r, hrun.trans hrun', hv', hr⟩
        · obtain ⟨r, hrun', hv', hr⟩ := ihi (2 * q.inputs + q.idle) (by omega) hv (by omega) rfl
          exact ⟨r, hrun.trans hrun', hv', hr⟩

end Rest

end Progress

end Srs.StringMerging
