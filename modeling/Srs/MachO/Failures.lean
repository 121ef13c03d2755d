/-
# Errors, panics and checked arithmetic

The Mach-O writer works on buffers of bytes and gives up with an error that it returns or with a
panic.  Every check has one lemma that says when it passes, and `bind_eq_ok` takes a computation
that succeeded apart.
-/
import Mathlib.Data.UInt

namespace Srs.MachO

open List

/-- How a function gives up: with an error that it returns, or with a panic. -/
inductive Failure
  | error (message : String)
  | panic
  deriving DecidableEq

/-- `ensure!(condition, message)`. -/
def ensure (condition : Prop) [Decidable condition] (message : String) : Except Failure Unit :=
  if condition then .ok () else .error (.error message)

/-- An operation that panics unless `condition` holds. -/
def orPanic (condition : Prop) [Decidable condition] : Except Failure Unit :=
  if condition then .ok () else .error .panic

/-- `a.checked_add(b)` on 64 bits. -/
def checkedAdd (a b : Nat) (message : String) : Except Failure Nat :=
  if a + b < 2 ^ 64 then .ok (a + b) else .error (.error message)

/-- `a.checked_mul(b)` on 64 bits. -/
def checkedMul (a b : Nat) (message : String) : Except Failure Nat :=
  if a * b < 2 ^ 64 then .ok (a * b) else .error (.error message)

/-- `option.ok_or_else(failure)`. -/
def okOr {α : Type} (failure : Failure) : Option α → Except Failure α
  | some a => .ok a
  | none => .error failure

/-- `div_ceil`. -/
def divCeil (a b : Nat) : Nat := (a + b - 1) / b

variable {α β : Type} {f : α → Except Failure β} {b : Nat} {message : String}

theorem bind_eq_ok {x : Except Failure α} {b : β} :
    (x >>= f) = .ok b ↔ ∃ a, x = .ok a ∧ f a = .ok b := by
  cases x <;> simp [bind, Except.bind]

@[simp] theorem ok_bind (a : α) (f : α → Except Failure β) :
    ((Except.ok a : Except Failure α) >>= f) = f a := rfl

variable {failure : Failure}

theorem ite_eq_ok {p : Prop} [Decidable p] {a b : α} :
    (if p then .ok a else .error failure : Except Failure α) = .ok b ↔ p ∧ b = a := by
  by_cases h : p
  · rw [if_pos h]
    exact ⟨fun heq => ⟨h, (Except.ok.inj heq).symm⟩, fun heq => heq.2 ▸ rfl⟩
  · rw [if_neg h]
    exact ⟨fun heq => (nomatch heq), fun heq => absurd heq.1 h⟩

variable {condition : Prop}

theorem ensure_eq_ok [Decidable condition] {u : Unit} :
    ensure condition message = .ok u ↔ condition := by
  unfold ensure
  split <;> simp_all

theorem orPanic_eq_ok [Decidable condition] {u : Unit} :
    orPanic condition = .ok u ↔ condition := by
  unfold orPanic
  split <;> simp_all

theorem checkedAdd_eq_ok {a c : Nat} :
    checkedAdd a b message = .ok c ↔ a + b < 2 ^ 64 ∧ c = a + b :=
  ite_eq_ok

theorem checkedMul_eq_ok {a c : Nat} :
    checkedMul a b message = .ok c ↔ a * b < 2 ^ 64 ∧ c = a * b :=
  ite_eq_ok

theorem okOr_eq_ok {x : Option α} {a : α} :
    okOr failure x = .ok a ↔ x = some a := by
  cases x <;> simp [okOr]

/-- What a loop that goes through gathers. -/
theorem mem_of_mapM_eq_ok : ∀ {l : List α} {bs : List β},
    l.mapM f = .ok bs → ∀ b, b ∈ bs ↔ ∃ a ∈ l, f a = .ok b
  | [], bs, h, b => by
    obtain rfl : [] = bs := Except.ok.inj h
    exact ⟨fun hb => absurd hb not_mem_nil, fun ⟨_, ha, _⟩ => absurd ha not_mem_nil⟩
  | a :: l, bs, h, b => by
    rw [mapM_cons] at h
    obtain ⟨c, hc, h⟩ := bind_eq_ok.mp h
    obtain ⟨cs, hcs, h⟩ := bind_eq_ok.mp h
    obtain rfl : c :: cs = bs := Except.ok.inj h
    rw [mem_cons, mem_of_mapM_eq_ok hcs]
    constructor
    · rintro (rfl | ⟨a', ha', hb⟩)
      · exact ⟨a, mem_cons_self, hc⟩
      · exact ⟨a', mem_cons_of_mem _ ha', hb⟩
    · rintro ⟨a', ha', hb⟩
      rcases mem_cons.mp ha' with rfl | ha'
      · exact Or.inl (Except.ok.inj (hb.symm.trans hc))
      · exact Or.inr ⟨a', ha', hb⟩

/-- A loop goes through where every item does. -/
theorem exists_mapM_eq_ok : ∀ {l : List α},
    (∀ a ∈ l, ∃ b, f a = .ok b) → ∃ bs, l.mapM f = .ok bs
  | [], _ => ⟨[], rfl⟩
  | a :: l, h => by
    obtain ⟨b, hb⟩ := h a mem_cons_self
    obtain ⟨bs, hbs⟩ := exists_mapM_eq_ok fun a' ha' => h a' (mem_cons_of_mem _ ha')
    refine ⟨b :: bs, ?_⟩
    rw [mapM_cons, hb, ok_bind, hbs]
    rfl

/-- A loop that goes through goes through at every item. -/
theorem exists_of_mapM_eq_ok : ∀ {l : List α} {bs : List β},
    l.mapM f = .ok bs → ∀ {a}, a ∈ l → ∃ b, f a = .ok b
  | a :: l, bs, h, a', ha' => by
    rw [mapM_cons] at h
    obtain ⟨c, hc, h⟩ := bind_eq_ok.mp h
    obtain ⟨cs, hcs, -⟩ := bind_eq_ok.mp h
    rcases mem_cons.mp ha' with rfl | ha'
    · exact ⟨c, hc⟩
    · exact exists_of_mapM_eq_ok hcs ha'

theorem lt_divCeil_iff {k n : Nat} (hb : 0 < b) : k < divCeil n b ↔ k * b < n := by
  rw [divCeil, Nat.lt_iff_add_one_le, Nat.le_div_iff_mul_le hb, Nat.add_mul]
  omega

end Srs.MachO
