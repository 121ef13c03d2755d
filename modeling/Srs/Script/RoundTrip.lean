/-
# What is printed is parsed

The parser's levels are numbered as in the table `sld`, so that an expression printed in a place
that asks for level `p` is read by the parser of level `p`: `Spells`.  One lemma for each way of
printing shows this, and the induction over the printed expression puts them together.

A text is followed by something at which the level stops (`Stop`): no operator of this level or a
tighter one, and no character that would make a name or a number longer or a symbol a call.

**The table of GNU ld is not the parser's**: `a & b == c` is read as `(a & b) == c`.
-/
import Mathlib
import Srs.Script.Printing

namespace Srs.Script

open Precedence List Nat UnaryOperator

variable {w : Winnow}

/-! ## 1. Blanks -/

theorem Blank.nil : Blank [] := fun _ h => absurd h not_mem_nil

variable {gap t : Text} {p : Nat} {e : Expression} {isMember : Char → Bool} {c : Char}
  {g₁ g₂ : Text} {factor : UInt64} {tail : Text} {value : UInt64} {name g₃ g₄ : Text}
  {rules : Rules} {tokens : List Text}

theorem multispace0_append (hw : w.Documented) (hgap : Blank gap) (t : Text) :
    w.multispace0 (gap ++ t) = w.multispace0 t := by
  rw [hw.multispace0, hw.multispace0, dropWhile_append_of_pos hgap]

/-- A text that starts with something else than a blank is left alone. -/
theorem multispace0_of_endsAt (hw : w.Documented) (h : EndsAt isMultispace t) :
    w.multispace0 t = t := by
  rw [hw.multispace0]
  cases t with
  | nil => rfl
  | cons c t => simp [h c rfl]

theorem skips (hw : w.Documented) : Skips w.multispace0 where
  again t := by
    simp only [hw.multispace0]
    exact dropWhile_idempotent isMultispace t
  le t := by
    rw [hw.multispace0]
    exact List.length_dropWhile_le isMultispace t

/-! ## 2. The levels by number -/

def operatorAt : Nat → Operator
  | 0 => logicalOrOperator
  | 1 => logicalAndOperator
  | 2 => comparisonOperator
  | 3 => bitwiseOrOperator
  | 4 => bitwiseXorOperator
  | 5 => bitwiseAndOperator
  | 6 => shiftOperator
  | 7 => additiveOperator
  | 8 => multiplicativeOperator
  | _ => fun _ => none

/-- The parser of a level, over the parser of unary operators. -/
def parserAt (w : Winnow) (unary : Reader Char Expression) : Nat → Reader Char Expression
  | 0 => parseLogicalOr w unary
  | 1 => parseLogicalAnd w unary
  | 2 => parseComparison w unary
  | 3 => parseBitwiseOr w unary
  | 4 => parseBitwiseXor w unary
  | 5 => parseBitwiseAnd w unary
  | 6 => parseShift w unary
  | 7 => parseAdditive w unary
  | 8 => parseMultiplicative w unary
  | _ => unary

/-- The level of comparisons, the one that does not chain. -/
abbrev comparisonLevel : Nat := 2

variable {unary : Reader Char Expression}

theorem parserAt_chains (hp : p < unaryLevel)
    (hne : p ≠ comparisonLevel) : parserAt w unary p =
      leftAssociative w.multispace0 (operatorAt p) (parserAt w unary (p + 1)) := by
  unfold unaryLevel at hp
  interval_cases p <;> first | rfl | exact absurd rfl hne

theorem parserAt_comparison :
    parserAt w unary comparisonLevel =
      atMostOne w.multispace0 (operatorAt comparisonLevel) (parserAt w unary 3) := rfl

/-- The parser of a level makes of its input what the parser of unary operators makes of it. -/
theorem parserAt_congr {unary : Reader Char Expression} {s s' : Text} (h : unary s = unary s')
    {p : Nat} (hp : p ≤ unaryLevel) : parserAt w unary p s = parserAt w unary p s' := by
  induction hp using decreasingInduction with
  | self => exact h
  | of_succ p hp ih =>
    rcases eq_or_ne p comparisonLevel with rfl | hne
    · exact atMostOne_congr ih
    · rw [parserAt_chains hp hne]
      exact leftAssociative_congr ih

/-- **Where a level stops**: at no character that goes on a name, a number or a call, and at no
operator of the level or a tighter one. -/
structure Stop (p : Nat) (t : Text) : Prop where
  head : ∀ c ∈ t.head?, isNameChar c = false ∧ c ≠ '('
  operators : ∀ q, p ≤ q → operatorAt q t = none

theorem Stop.succ (h : Stop p t) : Stop (p + 1) t ∧ operatorAt p t = none :=
  ⟨⟨h.head, fun q hq => h.operators q (le_of_succ_le hq)⟩, h.operators p (le_refl p)⟩

/-- The text spells an expression at a level, whatever depth the recursion still has, as long as the
input is shorter. -/
def Spells (w : Winnow) (p : Nat) (t : Text) (e : Expression) : Prop :=
  ∀ depth,
    (p < unaryLevel → p ≠ comparisonLevel → Continues w.multispace0 depth (operatorAt p)
      (parserAt w (parseUnary w depth) (p + 1)) (Stop (p + 1)) t e) ∧
    Reads w.multispace0 depth (parserAt w (parseUnary w depth) p) (Stop p) t e

theorem consumes_parserAt {depth : Nat} (hp : p < unaryLevel) (hne : p ≠ comparisonLevel)
    (h : Continues w.multispace0 depth (operatorAt p)
      (parserAt w (parseUnary w depth) (p + 1)) (Stop (p + 1)) t e) :
    Consumes w.multispace0 depth (parserAt w (parseUnary w depth) p) (Stop p) t e := by
  rw [parserAt_chains hp hne]
  intro rest hlen hstop
  exact h.consumes rest hlen hstop.succ

/-- At a level that chains, coming to the loop is enough. -/
theorem spells_of_continues (hw : w.Documented) (hp : p < unaryLevel) (hne : p ≠ comparisonLevel)
    (h : ∀ depth, Continues w.multispace0 depth (operatorAt p)
      (parserAt w (parseUnary w depth) (p + 1)) (Stop (p + 1)) t e) : Spells w p t e := by
  intro depth
  exact ⟨fun _ _ => h depth, (consumes_parserAt hp hne (h depth)).reads (skips hw)⟩

/-- What a level takes as an operand, it takes. -/
theorem Spells.pred (hw : w.Documented)
    (hp : p < unaryLevel) (h : Spells w (p + 1) t e) : Spells w p t e := by
  rcases eq_or_ne p comparisonLevel with rfl | hne
  · intro depth
    refine ⟨fun _ habsurd => absurd rfl habsurd, ?_⟩
    rw [parserAt_comparison]
    refine Consumes.reads (skips hw) fun rest hlen hstop => ?_
    exact (h depth).2.consumes_atMostOne rest hlen hstop.succ
  · exact spells_of_continues hw hp hne fun depth => (h depth).2.continues (skips hw)

theorem Spells.le (hw : w.Documented) {q : Nat} (hpq : p ≤ q)
    (hq : q ≤ unaryLevel) (h : Spells w q t e) : Spells w p t e := by
  induction q, hpq using le_induction with
  | base => exact h
  | succ q _ ih => exact ih (le_of_succ_le hq) (h.pred hw hq)

/-! ## 3. What ends a text, what starts one -/

/-- What stops a level ends a name. -/
theorem Stop.endsAt (hw : w.Documented) (h : Stop p (w.multispace0 t)) :
    EndsAt isNameChar t := by
  intro c hc
  cases hspace : isMultispace c with
  | true =>
    simp only [isMultispace, Bool.or_eq_true, decide_eq_true_eq] at hspace
    rcases hspace with ((rfl | rfl) | rfl) | rfl <;> decide
  | false =>
    have hends : EndsAt isMultispace t := by
      intro d hd
      rw [hc] at hd
      cases hd
      exact hspace
    rw [multispace0_of_endsAt hw hends] at h
    exact (h.head c hc).1

/-- The end of the input, a closing parenthesis and a comma stop every level. -/
theorem stop_closing (ht : ∀ c ∈ t.head?, c = ')' ∨ c = ',') : Stop p t where
  head c hc := by rcases ht c hc with rfl | rfl <;> decide
  operators q _ := by
    rcases t with _ | ⟨c, t⟩
    · unfold operatorAt
      split <;> rfl
    · rcases ht c rfl with rfl | rfl <;> unfold operatorAt <;> split <;> rfl

/-- What may follow an infix operator without becoming part of it. -/
def Loose (t : Text) : Prop := ∀ c ∈ t.head?, c ∉ ['=', '<', '>', '|', '&']

theorem operatorAt_token (op : BinaryOperator) (ht : Loose t) :
    operatorAt (sld.level op) (op.token ++ t) = some (op.build, t) := by
  rcases t with _ | ⟨c, t⟩
  · cases op <;> rfl
  · have hc := ht c rfl
    simp only [mem_cons, not_mem_nil, or_false, not_or] at hc
    cases op <;>
      simp [sld, operatorAt, BinaryOperator.token, BinaryOperator.build, logicalOrOperator,
        logicalAndOperator, comparisonOperator, bitwiseOrOperator, bitwiseXorOperator,
        bitwiseAndOperator, shiftOperator, additiveOperator, multiplicativeOperator, firstLiteral,
        loneChar, literal, Ne.symm hc.1, Ne.symm hc.2.2.2.1, Ne.symm hc.2.2.2.2]

/-- Before an infix operator every tighter level stops. -/
theorem stop_token (op : BinaryOperator) (ht : Loose t) :
    Stop (sld.level op + 1) (op.token ++ t) where
  head c hc := by
    cases op <;> cases hc <;> decide
  operators q hq := by
    rcases lt_or_ge q unaryLevel with hlt | hge
    · unfold unaryLevel at hlt
      rcases t with _ | ⟨c, t⟩
      · cases op <;> simp only [sld] at hq <;> interval_cases q <;> rfl
      · have hc := ht c rfl
        simp only [mem_cons, not_mem_nil, or_false, not_or] at hc
        cases op <;> simp only [sld] at hq <;> interval_cases q <;>
          simp [operatorAt, BinaryOperator.token, bitwiseOrOperator, bitwiseXorOperator,
            comparisonOperator, logicalAndOperator, bitwiseAndOperator, shiftOperator,
            additiveOperator, multiplicativeOperator, firstLiteral, loneChar, literal,
            Ne.symm hc.2.1, Ne.symm hc.2.2.1]
    · obtain ⟨k, rfl⟩ := Nat.exists_eq_add_of_le' hge
      rfl

/-- The characters that no operand starts with: blanks, and what would become part of an infix
operator in front of it. -/
def notAStart : List Char := [' ', '\t', '\r', '\n', '=', '<', '>', '|', '&']

def Starts (t : Text) : Prop := ∃ c rest, t = c :: rest ∧ c ∉ notAStart

theorem Starts.append (h : Starts t) (rest : Text) : Starts (t ++ rest) := by
  obtain ⟨c, r, rfl, hc⟩ := h
  exact ⟨c, r ++ rest, rfl, hc⟩

theorem Starts.endsAt (h : Starts t) : EndsAt isMultispace t := by
  obtain ⟨c, r, rfl, hc⟩ := h
  rintro d hd
  cases hd
  simp only [notAStart, mem_cons, not_or] at hc
  simp [isMultispace, hc]

/-- A member of a class is none of the characters outside it. -/
theorem not_mem_of_class {l : List Char}
    (hc : isMember c = true) (hl : ∀ d ∈ l, isMember d = false) : c ∉ l := by
  intro hmem
  rw [hl c hmem] at hc
  exact absurd hc (by decide)

/-- A text of a class that has none of these characters. -/
theorem starts_of_class (ht : t.head?.any isMember = true)
    (hclass : ∀ c ∈ notAStart, isMember c = false) : Starts t := by
  rcases t with _ | ⟨c, t⟩
  · simp at ht
  · exact ⟨c, t, rfl, not_mem_of_class (by simpa using ht) hclass⟩

theorem Starts.loose (hgap : Blank gap) (h : Starts t) : Loose (gap ++ t) := by
  rintro c hc
  rcases gap with _ | ⟨d, gap⟩
  · obtain ⟨c', r, rfl, hc'⟩ := h
    cases hc
    simp only [notAStart, mem_cons, not_or] at hc'
    simp [hc']
  · cases hc
    have hd := hgap c mem_cons_self
    simp only [isMultispace, Bool.or_eq_true, decide_eq_true_eq] at hd
    rcases hd with ((rfl | rfl) | rfl) | rfl <;> decide

/-! ## 4. Infix operators -/

theorem BinaryOperator.endsAt_token (op : BinaryOperator) (t : Text) :
    EndsAt isMultispace (op.token ++ t) := by
  intro c hc
  cases op <;> cases hc <;> rfl

theorem BinaryOperator.token_length (op : BinaryOperator) : 0 < op.token.length := by
  cases op <;> decide

theorem readsOperator (hw : w.Documented) (op : BinaryOperator) (hgap : Blank gap) (ht : Starts t) :
    ReadsOperator w.multispace0 (operatorAt (sld.level op)) (op.token ++ gap) t op.build := by
  intro rest
  have hfront : w.multispace0 (op.token ++ gap ++ (t ++ rest)) =
      op.token ++ (gap ++ (t ++ rest)) := by
    rw [List.append_assoc]
    exact multispace0_of_endsAt hw (op.endsAt_token _)
  refine ⟨gap ++ (t ++ rest), ?_, ?_, ?_⟩
  · rw [hfront]
    exact operatorAt_token op ((ht.append rest).loose hgap)
  · rw [multispace0_append hw hgap]
    exact multispace0_of_endsAt hw (ht.append rest).endsAt
  · have := op.token_length
    rw [hfront]
    simp only [length_append]
    omega

theorem stop_operator (hw : w.Documented) (op : BinaryOperator) (hgap : Blank gap)
    (ht : Starts t) (rest : Text) :
    Stop (sld.level op + 1) (w.multispace0 (op.token ++ gap ++ (t ++ rest))) := by
  rw [List.append_assoc, multispace0_of_endsAt hw (op.endsAt_token _)]
  exact stop_token op ((ht.append rest).loose hgap)

theorem sld_level_lt (op : BinaryOperator) : sld.level op < unaryLevel := by
  cases op <;> decide

variable {a b : Expression}

/-- **An infix operator** between operands that the table allows there. -/
theorem spells_binary (hw : w.Documented) (op : BinaryOperator) {tl tr : Text} (hgap : Blank gap) (hstart : Starts tr)
    (ha : Spells w (sld.leftLevel op) tl a) (hb : Spells w (sld.level op + 1) tr b) :
    Spells w (sld.level op) (tl ++ (op.token ++ gap ++ tr)) (op.build a b) := by
  have hop := readsOperator hw op hgap hstart
  have hstop := stop_operator hw op hgap hstart
  cases hcomp : op.isComparison with
  | true =>
    have hlevel : sld.level op = comparisonLevel := by
      cases op <;> first | rfl | simp [BinaryOperator.isComparison] at hcomp
    have hleft : sld.leftLevel op = comparisonLevel + 1 := by
      rw [Rules.leftLevel, hlevel]
      simp [sld, hcomp]
    rw [hlevel] at hop hstop hb ⊢
    rw [hleft] at ha
    intro depth
    refine ⟨fun _ habsurd => absurd rfl habsurd, ?_⟩
    rw [parserAt_comparison]
    refine Consumes.reads (skips hw) fun rest hlen hrest => ?_
    exact (ha depth).2.binary_atMostOne (hb depth).2 hop hstop rest hlen hrest.succ.1
  | false =>
    have hne : sld.level op ≠ comparisonLevel := by
      cases op <;> first | decide | simp [BinaryOperator.isComparison] at hcomp
    have hleft : sld.leftLevel op = sld.level op := by
      simp [Rules.leftLevel, sld, hcomp]
    rw [hleft] at ha
    refine spells_of_continues hw (sld_level_lt op) hne fun depth => ?_
    exact ((ha depth).1 (sld_level_lt op) hne).binary (skips hw) (hb depth).2 hop hstop

/-! ## 5. Inside parentheses -/

/-- `parse_unary` does not see the blanks in front. -/
theorem parseUnary_congr {s s' : Text} (h : w.multispace0 s = w.multispace0 s') (depth : Nat) :
    parseUnary w depth s = parseUnary w depth s' := by
  cases depth with
  | zero => rfl
  | succ depth => simp only [parseUnary, h]

theorem parseExpressionOver_consumes {depth : Nat} {s t rest : Text} {e : Expression}
    (h : Spells w 0 t e) (hs : w.multispace0 s = w.multispace0 (t ++ rest))
    (hlen : (t ++ rest).length < depth) (hstop : Stop 0 (w.multispace0 rest)) :
    parseExpressionOver w (parseUnary w depth) s = some (e, w.multispace0 rest) := by
  have hfront := @parserAt_congr w _ _ _ (parseUnary_congr hs depth) 0 (by decide)
  have hread := consumes_parserAt (by decide) (by decide) ((h depth).1 (by decide) (by decide))
  exact hfront.trans (hread rest hlen hstop)

theorem spells_unaryLevel
    (h : ∀ depth rest, (t ++ rest).length ≤ depth → Stop unaryLevel (w.multispace0 rest) →
      ∃ r, parseUnary w (depth + 1) (t ++ rest) = some (e, r) ∧
        w.multispace0 r = w.multispace0 rest) : Spells w unaryLevel t e := by
  intro depth
  refine ⟨fun habsurd => absurd habsurd (lt_irrefl _), fun rest hlen hstop => ?_⟩
  cases depth with
  | zero => exact absurd hlen (not_lt_zero _)
  | succ depth => exact h depth rest (le_of_lt_succ hlen) hstop

/-- The characters that no primary starts with: blanks and the unary operators. -/
def notPrimary : List Char := [' ', '\t', '\r', '\n', '!', '~', '-']

/-- What starts with none of the unary operators is a primary. -/
theorem parseUnary_primary (hw : w.Documented) (depth : Nat) (hc : c ∉ notPrimary) :
    parseUnary w (depth + 1) (c :: t) =
      (parseParenthesised (parseExpressionOver w (parseUnary w depth)) (c :: t) <|>
        parseNumberWithSuffix w (c :: t) <|>
        parseIdentifierOrFunction w (parseExpressionOver w (parseUnary w depth)) (c :: t)) := by
  simp only [notPrimary, mem_cons, not_mem_nil, or_false, not_or] at hc
  have hfront : w.multispace0 (c :: t) = c :: t := by
    refine multispace0_of_endsAt hw ?_
    rintro d hd
    cases hd
    simp [isMultispace, hc]
  simp [parseUnary, parsePrimary, hfront, loneChar, literal, Ne.symm hc.2.2.2.2.1,
    Ne.symm hc.2.2.2.2.2.1, Ne.symm hc.2.2.2.2.2.2]

theorem multispace0_closing (hw : w.Documented) (hgap : Blank gap)
    (hc : isMultispace c = false) (rest : Text) :
    w.multispace0 (gap ++ c :: rest) = c :: rest := by
  rw [multispace0_append hw hgap]
  exact multispace0_of_endsAt hw (by rintro d hd; cases hd; exact hc)

/-- **A nested expression** is read up to the comma or parenthesis behind it. -/
theorem parseExpressionOver_spells (hw : w.Documented) {depth : Nat} {s t rest : Text}
    {e : Expression} {c : Char} (h : Spells w 0 t e) (hc : c = ')' ∨ c = ',')
    (hs : w.multispace0 s = w.multispace0 (t ++ c :: rest))
    (hlen : (t ++ c :: rest).length < depth) :
    parseExpressionOver w (parseUnary w depth) s = some (e, c :: rest) := by
  have hclosing : w.multispace0 (c :: rest) = c :: rest := by
    refine multispace0_closing hw .nil ?_ rest
    rcases hc with rfl | rfl <;> decide
  have hstop : Stop 0 (w.multispace0 (c :: rest)) := by
    rw [hclosing]
    exact stop_closing (by rintro d hd; cases hd; exact hc)
  have hread := parseExpressionOver_consumes h hs hlen hstop
  rwa [hclosing] at hread

/-- **Parentheses.** -/
theorem spells_parenthesised (hw : w.Documented)
    (h₁ : Blank g₁) (h₂ : Blank g₂) (h : Spells w 0 t e) :
    Spells w unaryLevel ('(' :: (g₁ ++ (t ++ ')' :: g₂))) e := by
  refine spells_unaryLevel fun depth rest hlen _ => ⟨g₂ ++ rest, ?_, multispace0_append hw h₂ rest⟩
  have hshorter : (t ++ ')' :: (g₂ ++ rest)).length < depth := by
    simp only [length_append, length_cons] at hlen ⊢
    omega
  have hinner : parseExpressionOver w (parseUnary w depth) (g₁ ++ (t ++ ')' :: (g₂ ++ rest))) =
      some (e, ')' :: (g₂ ++ rest)) :=
    parseExpressionOver_spells hw h (.inl rfl) (multispace0_append hw h₁ _) hshorter
  have hinput : '(' :: (g₁ ++ (t ++ ')' :: g₂)) ++ rest =
      '(' :: (g₁ ++ (t ++ ')' :: (g₂ ++ rest))) := by simp
  rw [hinput, parseUnary_primary hw depth (by decide)]
  simp [parseParenthesised, literal, hinner]

/-! ## 6. Numbers -/

theorem Digits.head {n : Nat} (h : Digits t n) : t.head?.any Char.isDigit = true := by
  cases h with
  | @decimal digits hne hdigits =>
    obtain ⟨c, rest, rfl⟩ := exists_cons_of_ne_nil hne
    simpa using hdigits c mem_cons_self
  | hexadecimal => rfl

theorem Suffix.chars (h : Suffix t factor) :
    ∀ c ∈ t.head?, c ∈ ['K', 'k', 'M', 'm'] := by
  cases h with
  | none => simp
  | kilo hc => rcases hc with rfl | rfl <;> simp
  | mega hc => rcases hc with rfl | rfl <;> simp

/-- What follows the digits of a number: its suffix, or what ends it. -/
theorem Suffix.endsAt (h : Suffix t factor) (htail : EndsAt isNameChar tail)
    (hname : ∀ c, isMember c = true → isNameChar c = true)
    (hletters : ∀ c ∈ ['K', 'k', 'M', 'm'], isMember c = false) :
    EndsAt isMember (t ++ tail) := by
  intro c hc
  rcases t with _ | ⟨d, t⟩
  · have hfalse : isNameChar c = false := htail c hc
    cases hmem : isMember c with
    | false => rfl
    | true => rw [hname c hmem] at hfalse; exact absurd hfalse (by decide)
  · cases hc
    exact hletters c (h.chars c rfl)

/-- The suffix is read after the number. -/
theorem withSuffix_append (base : UInt64) (h : Suffix t factor) (htail : EndsAt isNameChar tail) :
    withSuffix base (t ++ tail) = (.number (base * factor), tail) := by
  cases h with
  | none =>
    rcases tail with _ | ⟨c, tail⟩
    · simp [withSuffix]
    · have hc : isNameChar c = false := htail c rfl
      unfold withSuffix
      split
      all_goals first
        | (rename_i heq; cases heq; exact absurd hc (by decide))
        | simp
  | kilo hc => rcases hc with rfl | rfl <;> rfl
  | mega hc => rcases hc with rfl | rfl <;> rfl

theorem isNameChar_of_isDigit (h : c.isDigit = true) : isNameChar c = true := by
  simp [isNameChar, Char.isAlphanum, h]

theorem isNameChar_of_isHexDigit (h : isHexDigit c = true) : isNameChar c = true := by
  simp only [isHexDigit, Bool.or_eq_true, Bool.and_eq_true, decide_eq_true_eq] at h
  rcases h with (h | ⟨hlow, hhigh⟩) | ⟨hlow, hhigh⟩
  · exact isNameChar_of_isDigit h
  · have hz : c ≤ 'z' := Char.le_trans hhigh (by decide : 'f' ≤ 'z')
    have hlower : c.isLower = true := by
      simp only [Char.isLower, Bool.and_eq_true, decide_eq_true_eq]
      exact ⟨hlow, hz⟩
    simp [isNameChar, Char.isAlphanum, Char.isAlpha, hlower]
  · have hz : c ≤ 'Z' := Char.le_trans hhigh (by decide : 'F' ≤ 'Z')
    have hupper : c.isUpper = true := by
      simp only [Char.isUpper, decide_eq_true_eq]
      exact ⟨hlow, hz⟩
    simp [isNameChar, Char.isAlphanum, Char.isAlpha, hupper]

/-- No hexadecimal prefix stands in front of decimal digits. -/
theorem literal_prefix_decimal {x : Char} {digits rest : Text} (hx : x.isDigit = false)
    (hdigits : ∀ c ∈ digits, c.isDigit = true) (hrest : ∀ c ∈ rest.head?, c ≠ x)
    (hne : digits ≠ []) : literal ['0', x] (digits ++ rest) = none := by
  rcases digits with _ | ⟨d, _ | ⟨d', digits⟩⟩
  · exact absurd rfl hne
  · rcases rest with _ | ⟨c, rest⟩
    · simp [literal]
    · simp [literal, Ne.symm (hrest c rfl)]
  · have hd : d' ≠ x := by
      rintro rfl
      rw [hdigits d' (by simp)] at hx
      exact absurd hx (by decide)
    simp [literal, Ne.symm hd]

/-- **A number** with its suffix is read up to where it ends. -/
theorem parseNumberWithSuffix_append (hw : w.Documented)
    (ht : NumberText t value) (htail : EndsAt isNameChar tail) :
    parseNumberWithSuffix w (t ++ tail) = some (.number value, tail) := by
  obtain ⟨digits, base, suffix, factor, rfl, hdigits, hsuffix, rfl⟩ := ht
  rw [List.append_assoc]
  cases hdigits with
  | decimal hne hall hzero hfits =>
    have hends := hsuffix.endsAt htail (fun c => isNameChar_of_isDigit) (by decide)
    have hprefix : ∀ x ∈ ['x', 'X'], literal ['0', x] (digits ++ (suffix ++ tail)) = none := by
      intro x hx
      have hxname : isNameChar x = true ∧ x.isDigit = false ∧ x ∉ ['K', 'k', 'M', 'm'] := by
        simp only [mem_cons, not_mem_nil, or_false] at hx
        rcases hx with rfl | rfl <;> decide
      refine literal_prefix_decimal hxname.2.1 hall ?_ hne
      rintro c hc rfl
      rcases suffix with _ | ⟨d, suffix⟩
      · have := htail c hc
        rw [hxname.1] at this
        exact absurd this (by decide)
      · cases hc
        exact hxname.2.2 (hsuffix.chars c rfl)
    have hlower := hprefix 'x' (by simp)
    have hupper := hprefix 'X' (by simp)
    simp [parseNumberWithSuffix, hlower, hupper, hw.decUint hne hall hzero hfits hends,
      withSuffix_append _ hsuffix htail]
  | @hexadecimal x digits hx hne hlen hall =>
    have hends := hsuffix.endsAt htail (fun c => isNameChar_of_isHexDigit) (by decide)
    have hread := hw.hexUint hne hlen hall hends
    rcases hx with rfl | rfl <;>
      simp [parseNumberWithSuffix, literal, hread, withSuffix_append _ hsuffix htail]

theorem spells_number (hw : w.Documented) (hgap : Blank gap)
    (ht : NumberText t value) : Spells w unaryLevel (t ++ gap) (.number value) := by
  refine spells_unaryLevel fun depth rest _ hstop =>
    ⟨gap ++ rest, ?_, multispace0_append hw hgap rest⟩
  have htail : EndsAt isNameChar (gap ++ rest) := by
    rw [← multispace0_append hw hgap] at hstop
    exact hstop.endsAt hw
  have hread := parseNumberWithSuffix_append hw ht htail
  obtain ⟨digits, base, suffix, factor, rfl, hdigits, -, -⟩ := ht
  have hhead := hdigits.head
  rw [List.append_assoc (digits ++ suffix)]
  rcases digits with _ | ⟨c, digits⟩
  · simp at hhead
  · have hc : c.isDigit = true := by simpa using hhead
    have hparen : c ∉ ['('] := not_mem_of_class hc (by decide)
    simp only [mem_singleton] at hparen
    simp only [cons_append] at hread ⊢
    rw [parseUnary_primary hw depth (not_mem_of_class hc (by decide)), hread]
    simp [parseParenthesised, literal, Ne.symm hparen]

/-! ## 7. Names and calls -/

theorem takeName_append (hw : w.Documented) (hname : IsName name)
    (htail : EndsAt isNameChar tail) : takeName w (name ++ tail) = some (name, tail) := by
  have hne : name ≠ [] := by
    rintro rfl
    exact absurd hname.start (by simp)
  simp [takeName, hw.takeWhile1 hne hname.chars htail, hname.start]

theorem isDigit_of_isNameStart (h : isNameStart c = true) : c.isDigit = false := by
  simp only [isNameStart, Bool.or_eq_true, decide_eq_true_eq] at h
  rcases h with (h | rfl) | rfl
  · simp [Char.isAlpha, Char.isUpper, Char.isLower, Char.isDigit, UInt32.le_iff_toNat_le] at h ⊢
    omega
  · decide
  · decide

/-- What starts like a name is an identifier. -/
theorem parseUnary_name (hw : w.Documented) (hname : IsName name) (tail : Text)
    (depth : Nat) : parseUnary w (depth + 1) (name ++ tail) =
      parseIdentifierOrFunction w (parseExpressionOver w (parseUnary w depth))
        (name ++ tail) := by
  have hstart := hname.start
  rcases name with _ | ⟨c, name⟩
  · simp at hstart
  · have hc : isNameStart c = true := by simpa using hstart
    have hother : c ∉ ['(', '0'] := not_mem_of_class hc (by decide)
    simp only [mem_cons, not_mem_nil, or_false, not_or] at hother
    have hdec : w.decUint (c :: (name ++ tail)) = none := by
      refine hw.decUint_eq_none ?_
      rintro d hd
      cases hd
      exact isDigit_of_isNameStart hc
    rw [cons_append, parseUnary_primary hw depth (not_mem_of_class hc (by decide))]
    simp [parseParenthesised, parseNumberWithSuffix, literal, Ne.symm hother.1,
      Ne.symm hother.2, hdec]

theorem spells_symbol (hw : w.Documented) (hgap : Blank gap)
    (hname : IsName name) (hdot : name ≠ ['.']) :
    Spells w unaryLevel (name ++ gap) (.symbol name) := by
  refine spells_unaryLevel fun depth rest _ hstop => ⟨w.multispace0 rest, ?_, (skips hw).again _⟩
  have hskip := multispace0_append hw hgap rest
  have htake : takeName w (name ++ (gap ++ rest)) = some (name, gap ++ rest) := by
    rw [← hskip] at hstop
    exact takeName_append hw hname (hstop.endsAt hw)
  have hcall : literal ['('] (w.multispace0 rest) = none := by
    cases hrest : w.multispace0 rest with
    | nil => rfl
    | cons c r =>
      have hc := hstop.head c (by simp [hrest])
      simp [literal, Ne.symm hc.2]
  rw [List.append_assoc, parseUnary_name hw hname]
  simp [parseIdentifierOrFunction, htake, hdot, hskip, hcall]

theorem spells_locationCounter (hw : w.Documented) (hgap : Blank gap) :
    Spells w unaryLevel (['.'] ++ gap) .locationCounter := by
  refine spells_unaryLevel fun depth rest _ hstop =>
    ⟨gap ++ rest, ?_, multispace0_append hw hgap rest⟩
  have hname : IsName ['.'] := ⟨by decide, by decide⟩
  have htake : takeName w (['.'] ++ (gap ++ rest)) = some (['.'], gap ++ rest) := by
    rw [← multispace0_append hw hgap] at hstop
    exact takeName_append hw hname (hstop.endsAt hw)
  rw [List.append_assoc, parseUnary_name hw hname, parseIdentifierOrFunction, htake]
  simp

/-- A text that blanks and then a character of no name follow ends there. -/
theorem endsAt_gap (hgap : Blank gap) (hc : isNameChar c = false)
    (rest : Text) : EndsAt isNameChar (gap ++ c :: rest) := by
  rcases gap with _ | ⟨d, gap⟩
  · rintro d hd
    cases hd
    exact hc
  · rintro e he
    cases he
    have hd := hgap d mem_cons_self
    simp only [isMultispace, Bool.or_eq_true, decide_eq_true_eq] at hd
    rcases hd with ((rfl | rfl) | rfl) | rfl <;> decide

/-- **A call** comes to its arguments. -/
theorem parseUnary_call (hw : w.Documented) {ident : Text} (hname : IsName ident)
    (hdot : ident ≠ ['.']) (h₁ : Blank g₁) (h₂ : Blank g₂) (arguments : Text) (depth : Nat) :
    parseUnary w (depth + 1) (ident ++ (g₁ ++ '(' :: (g₂ ++ arguments))) =
      parseCall w (parseExpressionOver w (parseUnary w depth)) ident
        (w.multispace0 arguments) := by
  have hends : EndsAt isNameChar (g₁ ++ '(' :: (g₂ ++ arguments)) :=
    endsAt_gap h₁ (by decide) _
  have hopen : w.multispace0 (g₁ ++ '(' :: (g₂ ++ arguments)) = '(' :: (g₂ ++ arguments) :=
    multispace0_closing hw h₁ (by decide) _
  rw [parseUnary_name hw hname, parseIdentifierOrFunction, takeName_append hw hname hends]
  simp [hdot, hopen, literal, multispace0_append hw h₂]

variable {f : Text × (Text → Expression)}

/-- The six functions of a name share one parser. -/
theorem parseCall_named (hf : f ∈ namedFunctions)
    (inner : Reader Char Expression) : parseCall w inner f.1 = parseNamed w f.2 := by
  simp only [namedFunctions, mem_cons, not_mem_nil, or_false] at hf
  rcases hf with rfl | rfl | rfl | rfl | rfl | rfl <;> simp [parseCall]

theorem parseCall_align (inner : Reader Char Expression) :
    parseCall w inner "ALIGN".toList = parseAlign w inner := by
  simp [parseCall]

theorem parseCall_pair {f : Text × (Expression → Expression → Expression)}
    (hf : f ∈ pairFunctions) (inner : Reader Char Expression) :
    parseCall w inner f.1 = parsePair w inner f.2 := by
  simp only [pairFunctions, mem_cons, not_mem_nil, or_false] at hf
  rcases hf with rfl | rfl <;> simp [parseCall]

theorem parseCall_segmentStart (inner : Reader Char Expression) :
    parseCall w inner "SEGMENT_START".toList = parseSegmentStart w inner := by
  simp [parseCall]

/-- The function names are names. -/
theorem isName_function {f : Text} (hf : f ∈ namedFunctions.map Prod.fst ++
      pairFunctions.map Prod.fst ++ ["ALIGN".toList, "SEGMENT_START".toList]) :
    IsName f ∧ f ≠ ['.'] := by
  have hall : (namedFunctions.map Prod.fst ++ pairFunctions.map Prod.fst ++
      ["ALIGN".toList, "SEGMENT_START".toList]).all
        (fun f => f.all isNameChar && f.head?.any isNameStart && f != ['.']) = true := by
    decide +kernel
  have h := all_eq_true.mp hall f hf
  simp only [Bool.and_eq_true, all_eq_true, bne_iff_ne] at h
  exact ⟨⟨h.1.1, h.1.2⟩, h.2⟩

theorem spells_call (hw : w.Documented) {ident arguments : Text}
    (hname : IsName ident ∧ ident ≠ ['.']) (h₁ : Blank g₁) (h₂ : Blank g₂)
    (h : ∀ depth rest, (arguments ++ rest).length < depth →
      ∃ r, parseCall w (parseExpressionOver w (parseUnary w depth)) ident
          (w.multispace0 (arguments ++ rest)) = some (e, r) ∧
        w.multispace0 r = w.multispace0 rest) :
    Spells w unaryLevel (ident ++ (g₁ ++ '(' :: (g₂ ++ arguments))) e := by
  refine spells_unaryLevel fun depth rest hlen _ => ?_
  have hinput : ident ++ (g₁ ++ '(' :: (g₂ ++ arguments)) ++ rest =
      ident ++ (g₁ ++ '(' :: (g₂ ++ (arguments ++ rest))) := by simp
  rw [hinput] at hlen ⊢
  rw [parseUnary_call hw hname.1 hname.2 h₁ h₂]
  refine h depth rest ?_
  simp only [length_append, length_cons] at hlen ⊢
  omega

theorem spells_named (hw : w.Documented)
    (hf : f ∈ namedFunctions) {arg : Text} (harg : IsName arg) (h₁ : Blank g₁)
    (h₂ : Blank g₂) (h₃ : Blank g₃) (h₄ : Blank g₄) :
    Spells w unaryLevel (f.1 ++ (g₁ ++ '(' :: (g₂ ++ (arg ++ (g₃ ++ ')' :: g₄))))) (f.2 arg) := by
  have hname : IsName f.1 ∧ f.1 ≠ ['.'] :=
    isName_function (by simp only [mem_append]; exact .inl (.inl (List.mem_map_of_mem hf)))
  refine spells_call hw hname h₁ h₂ fun depth rest _ =>
    ⟨g₄ ++ rest, ?_, multispace0_append hw h₄ rest⟩
  have hinput : arg ++ (g₃ ++ ')' :: g₄) ++ rest = arg ++ (g₃ ++ ')' :: (g₄ ++ rest)) := by simp
  have hstart : w.multispace0 (arg ++ (g₃ ++ ')' :: (g₄ ++ rest))) =
      arg ++ (g₃ ++ ')' :: (g₄ ++ rest)) :=
    multispace0_of_endsAt hw ((starts_of_class harg.start (by decide)).append _).endsAt
  have htake := takeName_append hw harg (endsAt_gap h₃ (by decide : isNameChar ')' = false)
    (g₄ ++ rest))
  have hclose := multispace0_closing hw h₃ (by decide : isMultispace ')' = false) (g₄ ++ rest)
  rw [parseCall_named hf, hinput, hstart]
  simp [parseNamed, parseFunctionArg, hstart, htake, hclose, literal]

theorem spells_align (hw : w.Documented)
    (h₁ : Blank g₁) (h₂ : Blank g₂) (h₃ : Blank g₃) (h : Spells w 0 t e) :
    Spells w unaryLevel ("ALIGN".toList ++ (g₁ ++ '(' :: (g₂ ++ (t ++ ')' :: g₃)))) (.align e) := by
  refine spells_call hw (isName_function (by simp)) h₁ h₂ fun depth rest hlen =>
    ⟨g₃ ++ rest, ?_, multispace0_append hw h₃ rest⟩
  have hinput : t ++ ')' :: g₃ ++ rest = t ++ ')' :: (g₃ ++ rest) := by simp
  rw [hinput] at hlen ⊢
  have hread := parseExpressionOver_spells hw h (.inl rfl) ((skips hw).again _) hlen
  have hclose := multispace0_closing hw .nil (by decide : isMultispace ')' = false) (g₃ ++ rest)
  rw [nil_append] at hclose
  rw [parseCall_align, parseAlign, hread]
  simp [hclose, literal]

theorem spells_pair (hw : w.Documented) {f : Text × (Expression → Expression → Expression)}
    (hf : f ∈ pairFunctions) {ta tb : Text} (h₁ : Blank g₁)
    (h₂ : Blank g₂) (h₃ : Blank g₃) (h₄ : Blank g₄) (ha : Spells w 0 ta a) (hb : Spells w 0 tb b) :
    Spells w unaryLevel
      (f.1 ++ (g₁ ++ '(' :: (g₂ ++ (ta ++ ',' :: (g₃ ++ (tb ++ ')' :: g₄)))))) (f.2 a b) := by
  have hname : IsName f.1 ∧ f.1 ≠ ['.'] :=
    isName_function (by simp only [mem_append]; exact .inl (.inr (List.mem_map_of_mem hf)))
  refine spells_call hw hname h₁ h₂ fun depth rest hlen =>
    ⟨g₄ ++ rest, ?_, multispace0_append hw h₄ rest⟩
  have hinput : ta ++ ',' :: (g₃ ++ (tb ++ ')' :: g₄)) ++ rest =
      ta ++ ',' :: (g₃ ++ (tb ++ ')' :: (g₄ ++ rest))) := by simp
  rw [hinput] at hlen ⊢
  have hfirst := parseExpressionOver_spells hw ha (.inr rfl) ((skips hw).again _) hlen
  have hcomma := multispace0_closing hw .nil (by decide : isMultispace ',' = false)
    (g₃ ++ (tb ++ ')' :: (g₄ ++ rest)))
  have hskip : w.multispace0 (w.multispace0 (g₃ ++ (tb ++ ')' :: (g₄ ++ rest)))) =
      w.multispace0 (tb ++ ')' :: (g₄ ++ rest)) := by
    rw [multispace0_append hw h₃, (skips hw).again]
  have hsecond := @parseExpressionOver_spells w hw depth _ _ _ _ _ hb (.inl rfl) hskip (by
    simp only [length_append, length_cons] at hlen ⊢
    omega)
  have hclose := multispace0_closing hw .nil (by decide : isMultispace ')' = false) (g₄ ++ rest)
  rw [nil_append] at hcomma hclose
  rw [parseCall_pair hf, parsePair, hfirst]
  simp [hcomma, hsecond, hclose, literal]

theorem spells_segmentStart (hw : w.Documented) {g₅ : Text}
    (hne : name ≠ []) (hquote : '"' ∉ name) (h₁ : Blank g₁) (h₂ : Blank g₂) (h₃ : Blank g₃)
    (h₄ : Blank g₄) (h₅ : Blank g₅) (h : Spells w 0 t e) :
    Spells w unaryLevel ("SEGMENT_START".toList ++ (g₁ ++ '(' :: (g₂ ++
        '"' :: (name ++ '"' :: (g₃ ++ ',' :: (g₄ ++ (t ++ ')' :: g₅)))))))
      (.segmentStart (SegmentName.fromBytes name) e) := by
  refine spells_call hw (isName_function (by simp)) h₁ h₂ fun depth rest hlen =>
    ⟨g₅ ++ rest, ?_, multispace0_append hw h₅ rest⟩
  have hinput : '"' :: (name ++ '"' :: (g₃ ++ ',' :: (g₄ ++ (t ++ ')' :: g₅)))) ++ rest =
      '"' :: (name ++ '"' :: (g₃ ++ ',' :: (g₄ ++ (t ++ ')' :: (g₅ ++ rest))))) := by simp
  rw [hinput] at hlen ⊢
  have hopen := multispace0_closing hw .nil (by decide : isMultispace '"' = false)
    (name ++ '"' :: (g₃ ++ ',' :: (g₄ ++ (t ++ ')' :: (g₅ ++ rest)))))
  have htake : w.takeWhile1 (· != '"')
      (name ++ '"' :: (g₃ ++ ',' :: (g₄ ++ (t ++ ')' :: (g₅ ++ rest))))) =
      some (name, '"' :: (g₃ ++ ',' :: (g₄ ++ (t ++ ')' :: (g₅ ++ rest))))) := by
    refine hw.takeWhile1 hne (fun c hc => ?_) ?_
    · simp only [bne_iff_ne, ne_eq]
      rintro rfl
      exact hquote hc
    · rintro c hc
      cases hc
      rfl
  have hcomma := multispace0_closing hw h₃ (by decide : isMultispace ',' = false)
    (g₄ ++ (t ++ ')' :: (g₅ ++ rest)))
  have hskip : w.multispace0 (w.multispace0 (g₄ ++ (t ++ ')' :: (g₅ ++ rest)))) =
      w.multispace0 (t ++ ')' :: (g₅ ++ rest)) := by
    rw [multispace0_append hw h₄, (skips hw).again]
  have hread := @parseExpressionOver_spells w hw depth _ _ _ _ _ h (.inl rfl) hskip (by
    simp only [length_append, length_cons] at hlen ⊢
    omega)
  have hclose := multispace0_closing hw .nil (by decide : isMultispace ')' = false) (g₅ ++ rest)
  rw [nil_append] at hopen hclose
  rw [parseCall_segmentStart, parseSegmentStart, hopen, hopen]
  simp [htake, hcomma, hread, hclose, literal]

/-! ## 8. Unary operators -/

theorem UnaryOperator.endsAt_token (op : UnaryOperator) (t : Text) :
    EndsAt isMultispace (op.token ++ t) := by
  intro c hc
  cases op <;> cases hc <;> rfl

/-- **A unary operator.** -/
theorem spells_unary (hw : w.Documented) (op : UnaryOperator)
    (hgap : Blank gap) (hstart : Starts t) (h : Spells w unaryLevel t e) :
    Spells w unaryLevel (op.token ++ (gap ++ t)) (op.build e) := by
  refine spells_unaryLevel fun depth rest hlen hstop => ?_
  have hlen' : (t ++ rest).length < depth := by
    have : 0 < op.token.length := by cases op <;> decide
    simp only [length_append] at hlen ⊢
    omega
  obtain ⟨r, hread, hr⟩ := (h depth).2 rest hlen' hstop
  have hoperand : parseUnary w depth (gap ++ (t ++ rest)) = some (e, r) :=
    (parseUnary_congr (multispace0_append hw hgap _) depth).trans hread
  have hinput : op.token ++ (gap ++ t) ++ rest = op.token ++ (gap ++ (t ++ rest)) := by simp
  have hfront := multispace0_of_endsAt hw (op.endsAt_token (gap ++ (t ++ rest)))
  refine ⟨r, ?_, hr⟩
  rw [hinput, parseUnary, hfront]
  have hloose : Loose (gap ++ (t ++ rest)) := (hstart.append rest).loose hgap
  cases op with
  | logicalNot =>
    have hlone : loneChar '!' '=' (logicalNot.token ++ (gap ++ (t ++ rest))) =
        some (gap ++ (t ++ rest)) := by
      cases htail : gap ++ (t ++ rest) with
      | nil => simp [loneChar, literal, token]
      | cons c tail =>
        have hc := hloose c (by simp [htail])
        simp only [mem_cons, not_or] at hc
        simp [loneChar, literal, token, Ne.symm hc.1]
    simp [hlone, hoperand, build]
  | bitwiseNot =>
    simp [loneChar, literal, token, hoperand, build]
  | negate =>
    simp [loneChar, literal, token, hoperand, build]

/-! ## 9. Expressions in print -/

theorem NumberText.starts (h : NumberText t value) : Starts t := by
  obtain ⟨digits, base, suffix, factor, rfl, hdigits, -, -⟩ := h
  exact (starts_of_class hdigits.head (by decide)).append suffix

/-- An expression in print starts with a token of its own. -/
theorem prints_starts
    (h : Prints rules p e tokens) : ∃ first others, tokens = first :: others ∧ Starts first := by
  have hfunction : ∀ {f : Text}, IsName f ∧ f ≠ ['.'] → Starts f :=
    fun hf => starts_of_class hf.1.start (by decide)
  induction h with
  | number ht => exact ⟨_, _, rfl, ht.starts⟩
  | symbol hn _ => exact ⟨_, _, rfl, starts_of_class hn.start (by decide)⟩
  | locationCounter => exact ⟨_, _, rfl, _, _, rfl, by decide⟩
  | named hf _ =>
    refine ⟨_, _, rfl, hfunction (isName_function ?_)⟩
    simp only [mem_append]
    exact .inl (.inl (List.mem_map_of_mem hf))
  | align => exact ⟨_, _, rfl, hfunction (isName_function (by simp))⟩
  | pair hf _ _ =>
    refine ⟨_, _, rfl, hfunction (isName_function ?_)⟩
    simp only [mem_append]
    exact .inl (.inr (List.mem_map_of_mem hf))
  | segmentStart => exact ⟨_, _, rfl, hfunction (isName_function (by simp))⟩
  | unary op => exact ⟨_, _, rfl, by cases op <;> exact ⟨_, _, rfl, by decide⟩⟩
  | binary op _ _ _ iha _ =>
    obtain ⟨first, others, rfl, hfirst⟩ := iha
    exact ⟨first, _, rfl, hfirst⟩
  | parenthesised => exact ⟨_, _, rfl, _, _, rfl, by decide⟩

theorem Spaced.starts
    {text : Text} (h : Prints rules p e tokens) (hs : Spaced tokens text) : Starts text := by
  obtain ⟨first, others, rfl, hfirst⟩ := prints_starts h
  obtain ⟨gap, rest, rfl, -, -⟩ := spaced_cons_iff.mp hs
  exact hfirst.append _

/-- **Every way of printing is read back**, at the level of its place. -/
theorem spells_of_prints (hw : w.Documented) (h : Prints sld p e tokens) :
    p ≤ unaryLevel → ∀ text, Spaced tokens text → Spells w p text e := by
  induction h with
  | number ht =>
    intro hp text hs
    obtain ⟨gap, rfl, hgap⟩ := spaced_singleton_iff.mp hs
    exact (spells_number hw hgap ht).le hw hp (le_refl _)
  | symbol hn hdot =>
    intro hp text hs
    obtain ⟨gap, rfl, hgap⟩ := spaced_singleton_iff.mp hs
    exact (spells_symbol hw hgap hn hdot).le hw hp (le_refl _)
  | locationCounter =>
    intro hp text hs
    obtain ⟨gap, rfl, hgap⟩ := spaced_singleton_iff.mp hs
    exact (spells_locationCounter hw hgap).le hw hp (le_refl _)
  | named hf harg =>
    intro hp text hs
    obtain ⟨g₁, text, rfl, h₁, hs⟩ := spaced_cons_iff.mp hs
    obtain ⟨g₂, text, rfl, h₂, hs⟩ := spaced_cons_iff.mp hs
    obtain ⟨g₃, text, rfl, h₃, hs⟩ := spaced_cons_iff.mp hs
    obtain ⟨g₄, rfl, h₄⟩ := spaced_singleton_iff.mp hs
    exact (spells_named hw hf harg h₁ h₂ h₃ h₄).le hw hp (le_refl _)
  | align _ ih =>
    intro hp text hs
    obtain ⟨g₁, text, rfl, h₁, hs⟩ := spaced_cons_iff.mp hs
    obtain ⟨g₂, text, rfl, h₂, hs⟩ := spaced_cons_iff.mp hs
    obtain ⟨t, text, rfl, ht, hs⟩ := spaced_append_iff.mp hs
    obtain ⟨g₃, rfl, h₃⟩ := spaced_singleton_iff.mp hs
    exact (spells_align hw h₁ h₂ h₃ (ih (zero_le _) t ht)).le hw hp (le_refl _)
  | pair hf _ _ iha ihb =>
    intro hp text hs
    obtain ⟨g₁, text, rfl, h₁, hs⟩ := spaced_cons_iff.mp hs
    obtain ⟨g₂, text, rfl, h₂, hs⟩ := spaced_cons_iff.mp hs
    obtain ⟨ta, text, rfl, hta, hs⟩ := spaced_append_iff.mp hs
    obtain ⟨g₃, text, rfl, h₃, hs⟩ := spaced_cons_iff.mp hs
    obtain ⟨tb, text, rfl, htb, hs⟩ := spaced_append_iff.mp hs
    obtain ⟨g₄, rfl, h₄⟩ := spaced_singleton_iff.mp hs
    exact (spells_pair hw hf h₁ h₂ h₃ h₄ (iha (zero_le _) ta hta)
      (ihb (zero_le _) tb htb)).le hw hp (le_refl _)
  | segmentStart hne hquote _ ih =>
    intro hp text hs
    obtain ⟨g₁, text, rfl, h₁, hs⟩ := spaced_cons_iff.mp hs
    obtain ⟨g₂, text, rfl, h₂, hs⟩ := spaced_cons_iff.mp hs
    obtain ⟨g₃, text, rfl, h₃, hs⟩ := spaced_cons_iff.mp hs
    obtain ⟨g₄, text, rfl, h₄, hs⟩ := spaced_cons_iff.mp hs
    obtain ⟨t, text, rfl, ht, hs⟩ := spaced_append_iff.mp hs
    obtain ⟨g₅, rfl, h₅⟩ := spaced_singleton_iff.mp hs
    have hspells := (spells_segmentStart hw hne hquote h₁ h₂ h₃ h₄ h₅
      (ih (zero_le _) t ht)).le hw hp (le_refl _)
    simpa using hspells
  | unary op _ he ih =>
    intro hp text hs
    obtain ⟨gap, t, rfl, hgap, ht⟩ := spaced_cons_iff.mp hs
    exact (spells_unary hw op hgap (ht.starts he) (ih (le_refl _) t ht)).le hw hp
      (le_refl _)
  | binary op hop ha hb iha ihb =>
    intro _ text hs
    have hlevel : sld.level op + 1 ≤ unaryLevel := sld_level_lt op
    have hleft : sld.leftLevel op ≤ unaryLevel := by
      unfold Rules.leftLevel
      split
      · exact le_of_succ_le hlevel
      · exact hlevel
    obtain ⟨tl, text, rfl, htl, hs⟩ := spaced_append_iff.mp hs
    obtain ⟨gap, tr, rfl, hgap, htr⟩ := spaced_cons_iff.mp hs
    have hspells := spells_binary hw op hgap (htr.starts hb) (iha hleft tl htl)
      (ihb hlevel tr htr)
    rw [List.append_assoc] at hspells
    exact hspells.le hw hop (le_of_succ_le hlevel)
  | parenthesised _ _ ih =>
    intro hp text hs
    obtain ⟨g₁, text, rfl, h₁, hs⟩ := spaced_cons_iff.mp hs
    obtain ⟨t, text, rfl, ht, hs⟩ := spaced_append_iff.mp hs
    obtain ⟨g₂, rfl, h₂⟩ := spaced_singleton_iff.mp hs
    exact (spells_parenthesised hw h₁ h₂ (ih (zero_le _) t ht)).le hw hp (le_refl _)

/-- What a printed expression is read as, with blanks in front. -/
theorem parseExpression_of_prints (hw : w.Documented)
    {lead text : Text} (h : Prints sld 0 e tokens) (hs : Spaced tokens text)
    (hlead : Blank lead) : parseExpression w (lead ++ text) = some (e, []) := by
  have hspells := spells_of_prints hw h (zero_le _) text hs
  have hempty : w.multispace0 [] = [] := by rw [hw.multispace0]; rfl
  have hread := @parseExpressionOver_consumes w ((lead ++ text).length + 1) (lead ++ text) text
    [] e hspells (by rw [append_nil, multispace0_append hw hlead])
    (by simp only [append_nil, length_append]; omega)
    (by rw [hempty]; exact stop_closing (by simp))
  rwa [hempty] at hread

/-! ## 10. The library's parsers -/

/-- Parsers that behave as documented. -/
def winnow : Winnow where
  multispace0 t := t.dropWhile isMultispace
  takeWhile1 isMember t :=
    if t.takeWhile isMember = [] then none
    else some (t.takeWhile isMember, t.dropWhile isMember)
  decUint
    | '0' :: rest => some (0, rest)
    | t =>
      let value := ofDigitChars 10 (t.takeWhile Char.isDigit) 0
      if t.takeWhile Char.isDigit = [] ∨ 2 ^ 64 ≤ value then none
      else some (UInt64.ofNat value, t.dropWhile Char.isDigit)
  hexUint t :=
    let digits := t.takeWhile isHexDigit
    if digits = [] ∨ 16 < digits.length then none
    else some (UInt64.ofNat (hexValue digits), t.dropWhile isHexDigit)

theorem takeWhile_append_endsAt {run rest : Text}
    (hrun : ∀ c ∈ run, isMember c = true) (hrest : EndsAt isMember rest) :
    (run ++ rest).takeWhile isMember = run ∧ (run ++ rest).dropWhile isMember = rest := by
  rw [takeWhile_append_of_pos hrun, dropWhile_append_of_pos hrun]
  cases rest with
  | nil => simp
  | cons c rest => simp [hrest c rfl]

theorem winnow_documented : winnow.Documented where
  multispace0 _ := rfl
  takeWhile1 {isMember run rest} hne hrun hrest := by
    obtain ⟨htake, hdrop⟩ := takeWhile_append_endsAt hrun hrest
    simp only [winnow, htake, hdrop, if_neg hne]
  decUint {digits rest} hne hdigits hzero hfits hrest := by
    obtain ⟨htake, hdrop⟩ := takeWhile_append_endsAt hdigits hrest
    rcases digits with _ | ⟨d, digits⟩
    · exact absurd rfl hne
    · by_cases hd : d = '0'
      · subst hd
        have hnil : digits = [] := by simpa using hzero rfl
        subst hnil
        rfl
      · have hother : winnow.decUint (d :: (digits ++ rest)) =
            if (d :: (digits ++ rest)).takeWhile Char.isDigit = [] ∨ 2 ^ 64 ≤
                ofDigitChars 10 ((d :: (digits ++ rest)).takeWhile Char.isDigit) 0 then none
            else some (UInt64.ofNat
                (ofDigitChars 10 ((d :: (digits ++ rest)).takeWhile Char.isDigit) 0),
              (d :: (digits ++ rest)).dropWhile Char.isDigit) := by
          simp only [winnow]
          split
          · rename_i heq
            cases heq
            exact absurd rfl hd
          · rfl
        rw [cons_append] at htake hdrop ⊢
        rw [hother, htake, hdrop, if_neg]
        simp only [cons_ne_nil, false_or, not_le]
        exact hfits
  decUint_eq_none {t} ht := by
    rcases t with _ | ⟨c, t⟩
    · rfl
    · have hc : c.isDigit = false := ht c rfl
      simp only [winnow]
      split
      · rename_i heq
        cases heq
        exact absurd hc (by decide)
      · simp [hc]
  hexUint {digits rest} hne hlen hdigits hrest := by
    obtain ⟨htake, hdrop⟩ := takeWhile_append_endsAt hdigits hrest
    simp only [winnow, htake, hdrop]
    exact if_neg (by simp [hne, hlen])

/-! ## 11. The round trip -/

/-- **A linker-script expression that is printed with the parser's own precedences is read back
whole**, with any blanks between, before and after its tokens, and with parentheses wherever the
table `sld` requires them and anywhere else. -/
theorem parse_print (w : Winnow) (hw : w.Documented) (e : Expression) (tokens : List Text)
    (lead text : Text) (h : Prints sld 0 e tokens) (hs : Spaced tokens text)
    (hlead : Blank lead) : parseExpression w (lead ++ text) = some (e, []) :=
  parseExpression_of_prints hw h hs hlead

/-- `a & b == c` -/
def maskTest : List Text := [['a'], ['&'], ['b'], ['=', '='], ['c']]

theorem spaced_maskTest : Spaced maskTest "a & b == c".toList := by
  have hone : Blank [' '] := by intro c hc; simp only [mem_singleton] at hc; subst hc; rfl
  exact .cons hone (.cons hone (.cons hone (.cons hone (.cons .nil .nil))))

theorem prints_name (p : Nat) (hc : isNameStart c = true)
    (hchar : isNameChar c = true) (hdot : [c] ≠ ['.']) :
    Prints rules p (.symbol [c]) [[c]] :=
  .symbol ⟨by intro d hd; simp only [mem_singleton] at hd; subst hd; exact hchar,
    by simpa using hc⟩ hdot

/-- By the parser's table the text is a comparison with `a & b`. -/
theorem prints_maskTest : Prints sld 0
    (.equal (.bitwiseAnd (.symbol ['a']) (.symbol ['b'])) (.symbol ['c'])) maskTest :=
  .binary .equal (by decide) (.binary .bitwiseAnd (by decide)
    (prints_name _ (by decide) (by decide) (by decide))
    (prints_name _ (by decide) (by decide) (by decide)))
    (prints_name _ (by decide) (by decide) (by decide))

theorem parse_print_maskTest : parseExpression winnow ([] ++ "a & b == c".toList) =
    some (.equal (.bitwiseAnd (.symbol ['a']) (.symbol ['b'])) (.symbol ['c']), []) :=
  parse_print winnow winnow_documented _ maskTest [] _ prints_maskTest spaced_maskTest .nil

/-- **GNU ld's table is not the parser's**: by that table the text is a mask with `b == c`. -/
theorem parse_print_gnu_fails : ¬ ∀ (w : Winnow), w.Documented → ∀ (e : Expression)
    (tokens : List Text) (lead text : Text), Prints gnu 0 e tokens → Spaced tokens text →
      Blank lead → parseExpression w (lead ++ text) = some (e, []) := by
  intro hclaim
  have hprints : Prints gnu 0
      (.bitwiseAnd (.symbol ['a']) (.equal (.symbol ['b']) (.symbol ['c']))) maskTest :=
    .binary .bitwiseAnd (by decide) (prints_name _ (by decide) (by decide) (by decide))
      (.binary .equal (by decide) (prints_name _ (by decide) (by decide) (by decide))
        (prints_name _ (by decide) (by decide) (by decide)))
  have hgnu := hclaim winnow winnow_documented _ maskTest [] _ hprints spaced_maskTest .nil
  have hsld := parseExpression_of_prints winnow_documented prints_maskTest spaced_maskTest .nil
  rw [hsld] at hgnu
  exact absurd hgnu (by decide)

end Srs.Script
