/-
# Procedures made of atomic operations

A procedure that works on shared storage is a tree: an operation, and for each reply how it goes
on.  What an operation may do to the world, its failures included, and what other parties may do
between two operations is a `System`.  A `Run` may stop at any point, which is what a crash is.

`Ensures always post p w` says of the procedure `p` started at `w` that every world on the way
satisfies `always`, whoever steps and wherever the run stops, and that a run that completes ends
in `post`.  It is defined by recursion on the procedure and closed under interference at each of
its points; `Ensures.run` is what it means for runs.  The rules follow the way procedures are
written: `Ensures.bind` for sequencing, `ensures_request` for one operation, and an `Action` is a
procedure with a local state and an early exit on an error, as a Rust method with `?` has them.

An assertion is `Stable` when other parties cannot break it.  A proof names a stable assertion
for each point of the procedure and shows that the next operation leads from one to the next.
-/
import Mathlib.Data.UInt

namespace Srs

/-- A procedure: it is done, or it asks for an operation and goes on with the reply. -/
inductive Procedure (Op : Type) (Reply : Op → Type) (α : Type) : Type
  | done (a : α)
  | call (op : Op) (next : Reply op → Procedure Op Reply α)

/-- What each operation may reply and do to the world, and what others may do in between. -/
structure System (Op : Type) (Reply : Op → Type) (World : Type) where
  effect : (op : Op) → World → Reply op → World → Prop
  interference : World → World → Prop

namespace Procedure

variable {Op : Type} {Reply : Op → Type} {World α β : Type}

/-- One procedure after the other. -/
def bind (p : Procedure Op Reply α) (f : α → Procedure Op Reply β) : Procedure Op Reply β :=
  match p with
  | done a => f a
  | call op next => call op fun r => (next r).bind f

/-- A single operation. -/
def request (op : Op) : Procedure Op Reply (Reply op) := call op done

instance : Monad (Procedure Op Reply) where
  pure := done
  bind := bind

/-! ## 1. Runs -/

/-- A run of a procedure from one world to another.  It may stop anywhere (`none`). -/
inductive Run (S : System Op Reply World) :
    Procedure Op Reply α → World → Option α → World → Prop
  | stopped (p w) : Run S p w none w
  | done (a w) : Run S (.done a) w (some a) w
  | interference {p w w' o w''} (h : S.interference w w') (hrun : Run S p w' o w'') :
      Run S p w o w''
  | call {op next w r w' o w''} (h : S.effect op w r w') (hrun : Run S (next r) w' o w'') :
      Run S (.call op next) w o w''

/-- The worlds that other parties can make of a world. -/
abbrev Later (S : System Op Reply World) : World → World → Prop :=
  Relation.ReflTransGen S.interference

variable {S : System Op Reply World}

/-! ## 2. What a procedure ensures -/

/-- Every world on the way satisfies `always`, and a run that completes ends in `post`. -/
def Ensures (S : System Op Reply World) (always : World → Prop) (post : α → World → Prop) :
    Procedure Op Reply α → World → Prop
  | done a, w => ∀ w', Later S w w' → always w' ∧ post a w'
  | call op next, w => ∀ w', Later S w w' →
      always w' ∧ ∀ r w'', S.effect op w' r w'' → Ensures S always post (next r) w''

variable {always : World → Prop} {post post' : α → World → Prop}

variable {p : Procedure Op Reply α} {w : World} {P : World → Prop}

variable {w' : World}

theorem Ensures.later
    (h : p.Ensures S always post w) (hw : Later S w w') : p.Ensures S always post w' := by
  cases p with
  | done a => exact fun w'' hw' => h w'' (hw.trans hw')
  | call op next => exact fun w'' hw' => h w'' (hw.trans hw')

theorem Ensures.now (h : p.Ensures S always post w) : always w := by
  cases p with
  | done a => exact (h w .refl).1
  | call op next => exact (h w .refl).1

/-- **What is ensured holds of every run**, whether it completes or not. -/
theorem Ensures.run {p : Procedure Op Reply α} {w w' : World} {o : Option α}
    (h : p.Ensures S always post w) (hrun : Run S p w o w') :
    always w' ∧ ∀ a, o = some a → post a w' := by
  induction hrun with
  | stopped p w => exact ⟨h.now, fun _ ha => nomatch ha⟩
  | done a w =>
    obtain ⟨halways, hpost⟩ := h w .refl
    exact ⟨halways, fun b hb => Option.some.inj hb ▸ hpost⟩
  | interference hstep _ ih => exact ih (h.later (.single hstep))
  | call heffect _ ih => exact ih ((h _ .refl).2 _ _ heffect)

theorem Ensures.mono (h : p.Ensures S always post w)
    (hpost : ∀ a w, always w → post a w → post' a w) : p.Ensures S always post' w := by
  induction p generalizing w with
  | done a => exact fun w' hw => ⟨(h w' hw).1, hpost a w' (h w' hw).1 (h w' hw).2⟩
  | call op next ih => exact fun w' hw => ⟨(h w' hw).1, fun r w'' he => ih r ((h w' hw).2 r w'' he)⟩

variable {f : α → Procedure Op Reply β} {allowed : Op → Prop}

/-- **Sequencing**: the second procedure starts where the first one may end. -/
theorem Ensures.bind {post : β → World → Prop}
    (h : p.Ensures S always (fun a => (f a).Ensures S always post) w) :
    (p >>= f).Ensures S always post w := by
  induction p generalizing w with
  | done a => exact (h w .refl).2
  | call op next ih => exact fun w' hw => ⟨(h w' hw).1, fun r w'' he => ih r ((h w' hw).2 r w'' he)⟩

/-- An assertion that other parties cannot break. -/
def Stable (S : System Op Reply World) (P : World → Prop) : Prop :=
  ∀ w w', S.interference w w' → P w → P w'

theorem Stable.later (hP : Stable S P) (h : Later S w w') (hw : P w) : P w' := by
  induction h with
  | refl => exact hw
  | tail _ hstep ih => exact hP _ _ hstep ih

/-- Where nobody interferes every assertion is stable. -/
theorem stable_of_alone (h : ∀ w w', ¬ S.interference w w') (P : World → Prop) : Stable S P :=
  fun w w' hstep => absurd hstep (h w w')

theorem ensures_done {a : α} (hP : Stable S P) (hw : P w)
    (halways : ∀ w, P w → always w) (hpost : ∀ w, P w → post a w) :
    (done a : Procedure Op Reply α).Ensures S always post w :=
  fun w' h => ⟨halways w' (hP.later h hw), hpost w' (hP.later h hw)⟩

/-- One operation, from a stable assertion. -/
theorem ensures_call {op : Op} {next : Reply op → Procedure Op Reply α} (hP : Stable S P) (hw : P w)
    (halways : ∀ w, P w → always w)
    (hnext : ∀ w r w', P w → S.effect op w r w' → (next r).Ensures S always post w') :
    (call op next).Ensures S always post w :=
  fun w' h => ⟨halways w' (hP.later h hw), fun r w'' he => hnext w' r w'' (hP.later h hw) he⟩

/-- Every operation that the procedure can ask for is of a kind. -/
def Uses (allowed : Op → Prop) : Procedure Op Reply α → Prop
  | done _ => True
  | call op next => allowed op ∧ ∀ r, (next r).Uses allowed

theorem Uses.bind (hp : p.Uses allowed) (hf : ∀ a, (f a).Uses allowed) :
    (p >>= f).Uses allowed := by
  induction p with
  | done a => exact hf a
  | call op next ih => exact ⟨hp.1, fun r => ih r (hp.2 r)⟩

/-- **An invariant of the operations in use is an invariant of the procedure.** -/
theorem Uses.ensures (hp : p.Uses allowed) (hw : always w)
    (hother : Stable S always)
    (hstep : ∀ op w r w', allowed op → always w → S.effect op w r w' → always w') :
    p.Ensures S always (fun _ _ => True) w := by
  induction p generalizing w with
  | done a => exact fun w' h => ⟨hother.later h hw, trivial⟩
  | call op next ih =>
    exact fun w' h => ⟨hother.later h hw, fun r w'' he =>
      ih r (hp.2 r) (hstep op w' r w'' hp.1 (hother.later h hw) he)⟩

end Procedure

/-! ## 3. Actions: a local state, and an early exit on an error -/

/-- A procedure with a local state and an early exit, as a method with `?` has them.  What was
assigned before the exit stays assigned. -/
def Action (Op : Type) (Reply : Op → Type) (ε σ α : Type) : Type :=
  σ → Procedure Op Reply (Except ε α × σ)

namespace Action

variable {Op : Type} {Reply : Op → Type} {ε σ α : Type}

instance : Monad (Action Op Reply ε σ) where
  pure a := fun s => .done (.ok a, s)
  bind x f := fun s => (x s).bind fun
    | (.ok a, s') => f a s'
    | (.error e, s') => .done (.error e, s')

/-- The early exit. -/
def fail (e : ε) : Action Op Reply ε σ α := fun s => .done (.error e, s)

/-- The local state. -/
def self : Action Op Reply ε σ σ := fun s => .done (.ok s, s)

/-- An assignment to the local state. -/
def update (f : σ → σ) : Action Op Reply ε σ Unit := fun s => .done (.ok (), f s)

/-- The outcome as a value: no early exit. -/
def attempt (x : Action Op Reply ε σ α) : Action Op Reply ε σ (Except ε α) := fun s =>
  (x s).bind fun (r, s') => .done (.ok r, s')

/-- `?` on an outcome. -/
def unwrap (r : Except ε α) : Action Op Reply ε σ α := fun s => .done (r, s)

variable {World : Type} {S : System Op Reply World} {always : World → Prop}
  {post : Except ε α × σ → World → Prop}

theorem ensures_ite {c : Prop} {_ : Decidable c} {x y : Action Op Reply ε σ α} {s : σ} {w : World}
    (hx : c → (x s).Ensures S always post w) (hy : ¬ c → (y s).Ensures S always post w) :
    ((if c then x else y) s).Ensures S always post w := by
  split
  · exact hx ‹_›
  · exact hy ‹_›

end Action

end Srs
