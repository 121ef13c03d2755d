/-
# Text: what the state files are made of

A Rust `str` is modelled as its list of characters.  Everything the incremental state writes
is line oriented: a line is a tab-separated row of columns, a column may be a comma- or
colon-separated row of its own, and the leaves are decimal numbers.  So three facts carry every
codec proof built on this file:

* splitting at a separator undoes joining at it, as long as no piece contains the separator
  (`split_join`, `splitOnce_append`);
* `str::lines` undoes `writeln!`, as long as no line contains a newline or ends in a carriage
  return (`lines_unlines`).  The second half is a real condition: `lines` drops a carriage
  return that stands before a newline;
* parsing a number undoes printing it (`Decimal.parse_render`), and a printed number contains
  no separator at all (`Decimal.not_mem_render`).

Nothing here is specific to one file format.
-/
import Mathlib.Data.UInt

namespace Srs

open List Option

/-- A Rust `str`, as its characters. -/
abbrev Text := List Char

instance : LawfulBEq Text := inferInstance

-- `Char` is a finite type, but a statement about the characters of a text is decided by going
-- through the text.
instance (priority := 1100) Text.decidableForall (p : Char → Prop) [DecidablePred p] (t : Text) :
    Decidable (∀ c ∈ t, p c) :=
  decidableBAll p t

/-- A fallible computation; the error is the outermost message of the chain. -/
abbrev Result (α : Type) := Except String α

/-- `Option::context`, and `Result::context` on a failed `parse`. -/
def context {α : Type} (o : Option α) (message : String) : Result α :=
  match o with
  | some a => .ok a
  | none => .error message

@[simp] theorem context_some {α : Type} (a : α) (m : String) : context (some a) m = .ok a := rfl

@[simp] theorem context_none {α : Type} (m : String) :
    context (none : Option α) m = .error m := rfl

variable {m : String}

theorem context_eq_ok {α : Type} {o : Option α} {a : α} :
    context o m = .ok a ↔ o = some a := by
  cases o <;> simp [context]

/-- `if condition { bail!(..) }`. -/
def failIf (condition : Prop) [Decidable condition] (message : String) : Result Unit :=
  if condition then .error message else .ok ()

theorem failIf_eq_ok {c : Prop} [Decidable c] {u : Unit} :
    failIf c m = .ok u ↔ ¬ c := by
  unfold failIf
  split <;> simp_all

@[simp] theorem failIf_neg {c : Prop} [Decidable c] (m : String) (h : ¬ c) :
    failIf c m = .ok () := if_neg h

variable {β : Type}

/-- Sequencing of two fallible steps: the first value is available to the second. -/
theorem bind_eq_ok {α : Type} {x : Result α} {f : α → Result β} {b : β} :
    (x >>= f) = .ok b ↔ ∃ a, x = .ok a ∧ f a = .ok b := by
  cases x <;> simp [bind, Except.bind]

@[simp] theorem ok_bind {α : Type} (a : α) (f : α → Result β) :
    ((Except.ok a : Result α) >>= f) = f a := rfl

@[simp] theorem error_bind {α : Type} (e : String) (f : α → Result β) :
    ((Except.error e : Result α) >>= f) = .error e := rfl

@[simp] theorem pure_eq_ok {α : Type} (a : α) : (pure a : Result α) = .ok a := rfl

@[simp] theorem throw_eq_error {α : Type} (e : String) : (throw e : Result α) = .error e := rfl

/-- A loop whose every turn succeeds. -/
theorem exists_mapM_ok {α : Type} {f : α → Result β} : ∀ {l : List α},
    (∀ a ∈ l, ∃ b, f a = .ok b) →
      ∃ bs, l.mapM f = .ok bs ∧ ∀ b, b ∈ bs ↔ ∃ a ∈ l, f a = .ok b
  | [], _ => ⟨[], rfl, by simp⟩
  | a :: l, h => by
    obtain ⟨b, hb⟩ := h a (by simp)
    obtain ⟨bs, hbs, hmem⟩ := exists_mapM_ok fun a' ha' => h a' (mem_cons_of_mem _ ha')
    refine ⟨b :: bs, by simp [hb, hbs], fun c => ?_⟩
    simp [hmem, hb, eq_comm]

/-- What a loop that succeeds returns. -/
theorem forall₂_of_mapM_ok {α : Type} {f : α → Result β} : ∀ {l : List α} {bs : List β},
    l.mapM f = .ok bs → Forall₂ (fun a b => f a = .ok b) l bs
  | [], bs, h => by
    obtain rfl : [] = bs := Except.ok.inj h
    exact .nil
  | a :: l, bs, h => by
    rw [mapM_cons] at h
    obtain ⟨b, hb, h⟩ := bind_eq_ok.mp h
    obtain ⟨later, hlater, h⟩ := bind_eq_ok.mp h
    cases h
    exact .cons hb (forall₂_of_mapM_ok hlater)

namespace Text

/-! ## 1. Joining and splitting -/

/-- `str::split_once`: the pieces before and after the first separator. -/
def splitOnce (sep : Char) : Text → Option (Text × Text)
  | [] => none
  | c :: t => if c = sep then some ([], t) else (splitOnce sep t).map fun p => (c :: p.1, p.2)

variable {sep : Char} {a : Text} {c : Char}

theorem splitOnce_append (b : Text) (h : sep ∉ a) :
    splitOnce sep (a ++ sep :: b) = some (a, b) := by
  induction a with
  | nil => simp [splitOnce]
  | cons c a ih =>
    have hc : c ≠ sep := fun e => h (e ▸ mem_cons_self)
    have ha : sep ∉ a := fun m => h (mem_cons_of_mem _ m)
    simp [splitOnce, hc, ih ha]

theorem splitOnce_eq_none (h : sep ∉ a) : splitOnce sep a = none := by
  induction a with
  | nil => rfl
  | cons c a ih =>
    have hc : c ≠ sep := fun e => h (e ▸ mem_cons_self)
    have ha : sep ∉ a := fun m => h (mem_cons_of_mem _ m)
    simp [splitOnce, hc, ih ha]

/-- `str::split` at a character. -/
def split (sep : Char) (t : Text) : List Text := splitOn sep t

/-- `[..].join(sep)` for a one-character separator: also what `format!("{}\t{}")` writes. -/
def join (sep : Char) (pieces : List Text) : Text := intercalate [sep] pieces

@[simp] theorem join_singleton (sep : Char) (a : Text) : join sep [a] = a := by
  simp [join, intercalate]

@[simp] theorem join_nil (sep : Char) : join sep [] = [] := by
  simp [join, intercalate]

theorem join_cons_cons (sep : Char) (a b : Text) (rest : List Text) :
    join sep (a :: b :: rest) = a ++ sep :: join sep (b :: rest) := by
  simp [join, intercalate]

theorem split_join {sep : Char} {pieces : List Text} (hne : pieces ≠ [])
    (h : ∀ p ∈ pieces, sep ∉ p) : split sep (join sep pieces) = pieces :=
  splitOn_intercalate sep h hne

variable {rest : List Text}

theorem splitOnce_join {b : Text} (h : sep ∉ a) :
    splitOnce sep (join sep (a :: b :: rest)) = some (a, join sep (b :: rest)) := by
  rw [join_cons_cons]
  exact splitOnce_append _ h

variable {pieces : List Text}

theorem mem_join (hc : c ∈ join sep pieces) :
    c = sep ∨ ∃ p ∈ pieces, c ∈ p := by
  induction pieces with
  | nil => simp at hc
  | cons a rest ih =>
    cases rest with
    | nil => exact .inr ⟨a, by simp, by simpa using hc⟩
    | cons b rest =>
      rw [join_cons_cons, mem_append, mem_cons] at hc
      rcases hc with hc | hc | hc
      · exact .inr ⟨a, by simp, hc⟩
      · exact .inl hc
      · rcases ih hc with h | ⟨p, hp, hcp⟩
        · exact .inl h
        · exact .inr ⟨p, mem_cons_of_mem _ hp, hcp⟩

theorem not_mem_join (hs : c ≠ sep)
    (h : ∀ p ∈ pieces, c ∉ p) : c ∉ join sep pieces := by
  intro hc
  rcases mem_join hc with e | ⟨p, hp, hcp⟩
  · exact hs e
  · exact h p hp hcp

theorem join_eq_nil_iff :
    join sep (a :: rest) = [] ↔ a = [] ∧ rest = [] := by
  cases rest with
  | nil => simp
  | cons b rest => simp [join_cons_cons]

/-- `str::splitn` at a character: at most `count` pieces, the last with what is left. -/
def splitn (sep : Char) : Nat → Text → List Text
  | 0, _ => []
  | 1, t => [t]
  | count + 2, t =>
    match splitOnce sep t with
    | none => [t]
    | some (piece, rest) => piece :: splitn sep (count + 1) rest

theorem splitn_join_three {b c : Text} (ha : sep ∉ a) (hb : sep ∉ b) :
    splitn sep 3 (join sep [a, b, c]) = [a, b, c] := by
  rw [splitn, splitOnce_join ha]
  simp only [splitn, splitOnce_join hb, join_singleton]

/-! ## 2. Lines -/

/-- What a run of `writeln!` leaves in its buffer: each line, followed by a newline. -/
def unlines (ls : List Text) : Text := ls.flatMap fun l => l ++ ['\n']

/-- `str::lines` drops one carriage return in front of the newline it cut at. -/
def dropCarriageReturn (l : Text) : Text :=
  if l.getLast? = some '\r' then l.dropLast else l

/-- `str::lines`.  A text that ends in a newline has no empty last line; a last line without
a newline is kept as it stands. -/
def lines (t : Text) : List Text :=
  let pieces := split '\n' t
  pieces.dropLast.map dropCarriageReturn ++ (pieces.getLast?.filter (· ≠ [])).toList

/-- A line that survives `writeln!` followed by `str::lines`. -/
def IsLine (l : Text) : Prop := '\n' ∉ l ∧ l.getLast? ≠ some '\r'

instance (l : Text) : Decidable (IsLine l) := inferInstanceAs (Decidable (_ ∧ _))

@[simp] theorem unlines_nil : unlines [] = [] := rfl

@[simp] theorem unlines_cons (l : Text) (ls : List Text) :
    unlines (l :: ls) = l ++ '\n' :: unlines ls := by
  simp [unlines]

theorem unlines_append (a b : List Text) : unlines (a ++ b) = unlines a ++ unlines b := by
  simp [unlines]

variable {ls : List Text}

theorem split_unlines (h : ∀ l ∈ ls, '\n' ∉ l) :
    split '\n' (unlines ls) = ls ++ [[]] := by
  induction ls with
  | nil => simp [split]
  | cons l ls ih =>
    have hl : '\n' ∉ l := h l (by simp)
    have hs : split '\n' (unlines ls) = ls ++ [[]] := ih fun x hx => h x (by simp [hx])
    rw [unlines_cons]
    unfold split at hs ⊢
    rw [splitOn_append_cons_self_of_not_mem hl, hs]
    rfl

/-- **Reading back what was written line by line.** -/
theorem lines_unlines (h : ∀ l ∈ ls, IsLine l) : lines (unlines ls) = ls := by
  have hs : split '\n' (unlines ls) = ls ++ [[]] := split_unlines fun l hl => (h l hl).1
  have hm : ls.map dropCarriageReturn = ls := by
    conv_rhs => rw [← List.map_id ls]
    refine map_congr_left fun l hl => ?_
    simp [dropCarriageReturn, (h l hl).2]
  simp [lines, hs, hm]

/-- The last character of a joined text is the separator, or the last character of the last
piece. -/
theorem getLast?_join : ∀ {pieces : List Text},
    (join sep pieces).getLast? = some c → c = sep ∨ ∃ p, pieces.getLast? = some p ∧
      p.getLast? = some c
  | [], h => by simp at h
  | [a], h => .inr ⟨a, by simp, by simpa using h⟩
  | a :: b :: rest, h => by
    rw [join_cons_cons] at h
    cases hj : join sep (b :: rest) with
    | nil =>
      rw [hj] at h
      simp only [getLast?_append, getLast?_singleton, some_or,
        some.injEq] at h
      exact .inl h.symm
    | cons d t =>
      have hlast : (join sep (b :: rest)).getLast? = some c := by
        rw [hj] at h ⊢
        simpa using h
      rcases getLast?_join hlast with h' | ⟨p, hp, hc⟩
      · exact .inl h'
      · exact .inr ⟨p, by simpa using hp, hc⟩

/-! ## 3. Decimal numbers -/

/-- `Display` of an unsigned integer. -/
def digits (n : Nat) : Text := Nat.toDigits 10 n

/-- The digits of an unsigned `FromStr`: at least one, and nothing else. -/
def parseDigits (t : Text) : Option Nat :=
  if t ≠ [] ∧ t.all Char.isDigit = true then some (Nat.ofDigitChars 10 t 0) else none

/-- An unsigned `FromStr` before its range check: a leading `+` is accepted. -/
def parseNat : Text → Option Nat
  | '+' :: t => parseDigits t
  | t => parseDigits t

/-- A signed `FromStr` before its range check. -/
def parseInt : Text → Option Int
  | '-' :: t => (parseDigits t).map fun n => -(n : Int)
  | '+' :: t => (parseDigits t).map fun n => (n : Int)
  | t => (parseDigits t).map fun n => (n : Int)

/-- `Display` of a signed integer. -/
def signedDigits : Int → Text
  | .ofNat n => digits n
  | .negSucc n => '-' :: digits (n + 1)

theorem isDigit_of_mem_digits {n : Nat} (h : c ∈ digits n) : c.isDigit = true :=
  Nat.isDigit_of_mem_toDigits (by decide) (by decide) h

theorem digits_ne_nil (n : Nat) : digits n ≠ [] := Nat.toDigits_ne_nil

@[simp] theorem parseDigits_digits (n : Nat) : parseDigits (digits n) = some n := by
  have hall : (digits n).all Char.isDigit = true :=
    all_eq_true.mpr fun c hc => isDigit_of_mem_digits hc
  rw [parseDigits, if_pos ⟨digits_ne_nil n, hall⟩]
  simp [digits]

/-- A printed number starts with a digit, so neither sign branch can take it. -/
theorem digits_eq_cons (n : Nat) : ∃ c t, digits n = c :: t ∧ c ≠ '+' ∧ c ≠ '-' := by
  cases h : digits n with
  | nil => exact absurd h (digits_ne_nil n)
  | cons c t =>
    have hc : c.isDigit = true := isDigit_of_mem_digits (n := n) (by simp [h])
    refine ⟨c, t, rfl, ?_, ?_⟩
    · rintro rfl; exact absurd hc (by decide)
    · rintro rfl; exact absurd hc (by decide)

@[simp] theorem parseNat_digits (n : Nat) : parseNat (digits n) = some n := by
  obtain ⟨c, t, h, hp, -⟩ := digits_eq_cons n
  have hd := parseDigits_digits n
  rw [h] at hd ⊢
  simpa [parseNat, hp] using hd

@[simp] theorem parseInt_signedDigits (i : Int) : parseInt (signedDigits i) = some i := by
  cases i with
  | ofNat n =>
    obtain ⟨c, t, h, hp, hm⟩ := digits_eq_cons n
    have hd := parseDigits_digits n
    simp only [signedDigits]
    rw [h] at hd ⊢
    simp [parseInt, hp, hm, hd]
  | negSucc n =>
    simp [signedDigits, parseInt, Int.negSucc_eq]

/-- A type printed and parsed in decimal: the integer types of the source. -/
class Decimal (α : Type) where
  render : α → Text
  parse : Text → Option α
  parse_render : ∀ a, parse (render a) = some a
  /-- Only digits and a sign are printed, and never the sign alone. -/
  render_chars : ∀ a, ∀ c ∈ render a, c.isDigit = true ∨ c = '-'
  render_ne_dash : ∀ a, render a ≠ ['-']

attribute [simp] Decimal.parse_render Decimal.render_ne_dash

namespace Decimal

variable {α : Type} [Decimal α]

/-- A printed number contains no separator of any of the formats. -/
theorem not_mem_render {c : Char} (h : c.isDigit = false) (hd : c ≠ '-') (a : α) :
    c ∉ render a := by
  intro hc
  rcases render_chars a c hc with h' | h'
  · simp [h] at h'
  · exact hd h'

theorem tab_not_mem (a : α) : '\t' ∉ render a := not_mem_render (by decide) (by decide) a

theorem newline_not_mem (a : α) : '\n' ∉ render a := not_mem_render (by decide) (by decide) a

theorem comma_not_mem (a : α) : ',' ∉ render a := not_mem_render (by decide) (by decide) a

theorem colon_not_mem (a : α) : ':' ∉ render a := not_mem_render (by decide) (by decide) a

end Decimal

theorem digits_ne_dash (n : Nat) : digits n ≠ ['-'] := by
  intro h
  have : ('-').isDigit = true := isDigit_of_mem_digits (n := n) (by simp [h])
  exact absurd this (by decide)

theorem signedDigits_chars (i : Int) : ∀ c ∈ signedDigits i, c.isDigit = true ∨ c = '-' := by
  intro c hc
  cases i with
  | ofNat n => exact .inl (isDigit_of_mem_digits hc)
  | negSucc n =>
    rcases mem_cons.mp hc with h | h
    · exact .inr h
    · exact .inl (isDigit_of_mem_digits h)

theorem signedDigits_ne_dash (i : Int) : signedDigits i ≠ ['-'] := by
  cases i with
  | ofNat n => exact digits_ne_dash n
  | negSucc n =>
    intro h
    exact digits_ne_nil (n + 1) (by simpa [signedDigits] using h)

/-- A `usize` that counts or indexes a list is a plain number: a `Vec` is never longer than
`isize::MAX`, so the range check of `usize::from_str` can only change which error a text that
no writer produces is refused with. -/
instance : Decimal Nat where
  render := digits
  parse := parseNat
  parse_render := parseNat_digits
  render_chars _ _ hc := .inl (isDigit_of_mem_digits hc)
  render_ne_dash := digits_ne_dash

/-- The range check of an unsigned `FromStr`. -/
def parseUnsigned {α : Type} (size : Nat) (ofNat : Nat → α) (t : Text) : Option α :=
  (parseNat t).bind fun n => if n < size then some (ofNat n) else none

theorem parseUnsigned_digits {α : Type} {size : Nat} {ofNat : Nat → α} {n : Nat} {a : α}
    (hn : n < size) (ha : ofNat n = a) : parseUnsigned size ofNat (digits n) = some a := by
  simp [parseUnsigned, hn, ha]

instance : Decimal UInt8 where
  render a := digits a.toNat
  parse := parseUnsigned UInt8.size UInt8.ofNat
  parse_render a := parseUnsigned_digits a.toNat_lt (by simp)
  render_chars _ _ hc := .inl (isDigit_of_mem_digits hc)
  render_ne_dash _ := digits_ne_dash _

instance : Decimal UInt32 where
  render a := digits a.toNat
  parse := parseUnsigned UInt32.size UInt32.ofNat
  parse_render a := parseUnsigned_digits a.toNat_lt (by simp)
  render_chars _ _ hc := .inl (isDigit_of_mem_digits hc)
  render_ne_dash _ := digits_ne_dash _

instance : Decimal UInt64 where
  render a := digits a.toNat
  parse := parseUnsigned UInt64.size UInt64.ofNat
  parse_render a := parseUnsigned_digits a.toNat_lt (by simp)
  render_chars _ _ hc := .inl (isDigit_of_mem_digits hc)
  render_ne_dash _ := digits_ne_dash _

instance : Decimal Int64 where
  render a := signedDigits a.toInt
  parse t := (parseInt t).bind fun i =>
    if -2 ^ 63 ≤ i ∧ i < 2 ^ 63 then some (Int64.ofInt i) else none
  parse_render a := by
    have h : -2 ^ 63 ≤ a.toInt ∧ a.toInt < 2 ^ 63 := ⟨a.le_toInt, a.toInt_lt⟩
    rw [parseInt_signedDigits, bind_some, if_pos h, Int64.ofInt_toInt]
  render_chars _ := signedDigits_chars _
  render_ne_dash _ := signedDigits_ne_dash _

end Text

end Srs
