/-
# Linker-script expressions in print

An expression is printed as a list of tokens, by a table that says how tightly each infix operator
binds: an operand that binds less tightly than its place asks for stands in parentheses.  Blanks may
stand between any two tokens.  Two tables are of interest:

* `gnu`: comparisons bind more tightly than `&`, `^` and `|`, every infix operator chains to the
  left, and parentheses stand only where the table requires them;
* `sld`: the order in which the parser's levels are nested.  Comparisons bind less tightly than
  `&`, `^` and `|` and do not chain.

Nothing here looks at the parser.
-/
import Srs.Script.Expressions

namespace Srs.Script

/-! ## 1. Operators -/

inductive BinaryOperator where
  | logicalOr | logicalAnd
  | lessThan | greaterThan | lessEqual | greaterEqual | equal | notEqual
  | bitwiseOr | bitwiseXor | bitwiseAnd
  | leftShift | rightShift
  | add | subtract
  | multiply | divide
  deriving DecidableEq

namespace BinaryOperator

def token : BinaryOperator → Text
  | logicalOr => ['|', '|']
  | logicalAnd => ['&', '&']
  | lessThan => ['<']
  | greaterThan => ['>']
  | lessEqual => ['<', '=']
  | greaterEqual => ['>', '=']
  | equal => ['=', '=']
  | notEqual => ['!', '=']
  | bitwiseOr => ['|']
  | bitwiseXor => ['^']
  | bitwiseAnd => ['&']
  | leftShift => ['<', '<']
  | rightShift => ['>', '>']
  | add => ['+']
  | subtract => ['-']
  | multiply => ['*']
  | divide => ['/']

def build : BinaryOperator → Expression → Expression → Expression
  | logicalOr => .logicalOr
  | logicalAnd => .logicalAnd
  | lessThan => .lessThan
  | greaterThan => .greaterThan
  | lessEqual => .lessEqual
  | greaterEqual => .greaterEqual
  | equal => .equal
  | notEqual => .notEqual
  | bitwiseOr => .bitwiseOr
  | bitwiseXor => .bitwiseXor
  | bitwiseAnd => .bitwiseAnd
  | leftShift => .leftShift
  | rightShift => .rightShift
  | add => .add
  | subtract => .subtract
  | multiply => .multiply
  | divide => .divide

def isComparison : BinaryOperator → Bool
  | lessThan | greaterThan | lessEqual | greaterEqual | equal | notEqual => true
  | _ => false

end BinaryOperator

inductive UnaryOperator where
  | logicalNot | bitwiseNot | negate
  deriving DecidableEq

namespace UnaryOperator

def token : UnaryOperator → Text
  | logicalNot => ['!']
  | bitwiseNot => ['~']
  | negate => ['-']

def build : UnaryOperator → Expression → Expression
  | logicalNot => .logicalNot
  | bitwiseNot => .bitwiseNot
  | negate => .negate

end UnaryOperator

/-- The functions of a section or region name. -/
def namedFunctions : List (Text × (Text → Expression)) := [
  ("SIZEOF".toList, .sizeof), ("ALIGNOF".toList, .alignof), ("ADDR".toList, .addr),
  ("ORIGIN".toList, .origin), ("LENGTH".toList, .length), ("LOADADDR".toList, .loadaddr)]

/-- The functions of two expressions. -/
def pairFunctions : List (Text × (Expression → Expression → Expression)) :=
  [("MIN".toList, .min), ("MAX".toList, .max)]

/-! ## 2. Tables -/

/-- How expressions are printed: how tightly each infix operator binds, which of them chain to the
left, and whether parentheses may also stand where nothing requires them. -/
structure Rules where
  level : BinaryOperator → Nat
  chains : BinaryOperator → Bool
  redundant : Bool

/-- Unary operators bind more tightly than every infix operator. -/
def unaryLevel : Nat := 9

/-- How tightly an expression's outermost operator binds. -/
def Rules.levelOf (rules : Rules) : Expression → Nat
  | .logicalOr .. => rules.level .logicalOr
  | .logicalAnd .. => rules.level .logicalAnd
  | .lessThan .. => rules.level .lessThan
  | .greaterThan .. => rules.level .greaterThan
  | .lessEqual .. => rules.level .lessEqual
  | .greaterEqual .. => rules.level .greaterEqual
  | .equal .. => rules.level .equal
  | .notEqual .. => rules.level .notEqual
  | .bitwiseOr .. => rules.level .bitwiseOr
  | .bitwiseXor .. => rules.level .bitwiseXor
  | .bitwiseAnd .. => rules.level .bitwiseAnd
  | .leftShift .. => rules.level .leftShift
  | .rightShift .. => rules.level .rightShift
  | .add .. => rules.level .add
  | .subtract .. => rules.level .subtract
  | .multiply .. => rules.level .multiply
  | .divide .. => rules.level .divide
  | .logicalNot _ | .bitwiseNot _ | .negate _ => unaryLevel
  | _ => unaryLevel + 1

/-- The level that the left operand of an operator has to reach. -/
def Rules.leftLevel (rules : Rules) (op : BinaryOperator) : Nat :=
  if rules.chains op then rules.level op else rules.level op + 1

/-- **GNU ld's table**: `* /`, `+ -`, `<< >>`, comparisons, `&`, `^`, `|`, `&&`, `||`. -/
def gnu : Rules where
  level
    | .logicalOr => 0
    | .logicalAnd => 1
    | .bitwiseOr => 2
    | .bitwiseXor => 3
    | .bitwiseAnd => 4
    | .lessThan | .greaterThan | .lessEqual | .greaterEqual | .equal | .notEqual => 5
    | .leftShift | .rightShift => 6
    | .add | .subtract => 7
    | .multiply | .divide => 8
  chains _ := true
  redundant := false

/-- **The table of the parser**: `* /`, `+ -`, `<< >>`, `&`, `^`, `|`, comparisons, `&&`, `||`.
An operand of a comparison that is itself a comparison stands in parentheses; parentheses may stand
anywhere else as well. -/
def sld : Rules where
  level
    | .logicalOr => 0
    | .logicalAnd => 1
    | .lessThan | .greaterThan | .lessEqual | .greaterEqual | .equal | .notEqual => 2
    | .bitwiseOr => 3
    | .bitwiseXor => 4
    | .bitwiseAnd => 5
    | .leftShift | .rightShift => 6
    | .add | .subtract => 7
    | .multiply | .divide => 8
  chains op := !op.isComparison
  redundant := true

/-! ## 3. Tokens -/

/-- A lexically valid name. -/
structure IsName (name : Text) : Prop where
  chars : ∀ c ∈ name, isNameChar c = true
  start : name.head?.any isNameStart = true

/-- Digits of a decimal number without leading zeros, or of a hexadecimal number with its prefix. -/
inductive Digits : Text → Nat → Prop
  | decimal {digits : Text} (hne : digits ≠ []) (hdigits : ∀ c ∈ digits, c.isDigit = true)
      (hzero : digits.head? = some '0' → digits = ['0'])
      (hfits : Nat.ofDigitChars 10 digits 0 < 2 ^ 64) :
      Digits digits (Nat.ofDigitChars 10 digits 0)
  | hexadecimal {x : Char} {digits : Text} (hx : x = 'x' ∨ x = 'X') (hne : digits ≠ [])
      (hlen : digits.length ≤ 16) (hdigits : ∀ c ∈ digits, isHexDigit c = true) :
      Digits ('0' :: x :: digits) (hexValue digits)

/-- The suffixes of numbers and what they multiply by. -/
inductive Suffix : Text → UInt64 → Prop
  | none : Suffix [] 1
  | kilo {c : Char} (hc : c = 'K' ∨ c = 'k') : Suffix [c] 1024
  | mega {c : Char} (hc : c = 'M' ∨ c = 'm') : Suffix [c] (1024 * 1024)

/-- A text of a number. -/
def NumberText (t : Text) (value : UInt64) : Prop :=
  ∃ digits base suffix factor, t = digits ++ suffix ∧ Digits digits base ∧
    Suffix suffix factor ∧ value = UInt64.ofNat base * factor

/-! ## 4. Printing -/

/-- **An expression in print**, in a place that asks for a level. -/
inductive Prints (rules : Rules) : Nat → Expression → List Text → Prop
  | number {p t value} (ht : NumberText t value) : Prints rules p (.number value) [t]
  | symbol {p name} (hn : IsName name) (hdot : name ≠ ['.']) :
      Prints rules p (.symbol name) [name]
  | locationCounter {p} : Prints rules p .locationCounter [['.']]
  | named {p f arg} (hf : f ∈ namedFunctions) (harg : IsName arg) :
      Prints rules p (f.2 arg) [f.1, ['('], arg, [')']]
  | align {p e tokens} (he : Prints rules 0 e tokens) :
      Prints rules p (.align e) ("ALIGN".toList :: ['('] :: (tokens ++ [[')']]))
  | pair {p f a b ta tb} (hf : f ∈ pairFunctions) (ha : Prints rules 0 a ta)
      (hb : Prints rules 0 b tb) :
      Prints rules p (f.2 a b) (f.1 :: ['('] :: (ta ++ [','] :: (tb ++ [[')']])))
  | segmentStart {p name e tokens} (hne : name ≠ []) (hquote : '"' ∉ name)
      (he : Prints rules 0 e tokens) :
      Prints rules p (.segmentStart (SegmentName.fromBytes name) e)
        ("SEGMENT_START".toList :: ['('] :: ('"' :: (name ++ ['"'])) :: [','] ::
          (tokens ++ [[')']]))
  | unary {p e tokens} (op : UnaryOperator) (hp : p ≤ unaryLevel)
      (he : Prints rules unaryLevel e tokens) : Prints rules p (op.build e) (op.token :: tokens)
  | binary {p a b ta tb} (op : BinaryOperator) (hp : p ≤ rules.level op)
      (ha : Prints rules (rules.leftLevel op) a ta)
      (hb : Prints rules (rules.level op + 1) b tb) :
      Prints rules p (op.build a b) (ta ++ op.token :: tb)
  | parenthesised {p e tokens} (hneeded : rules.redundant = true ∨ rules.levelOf e < p)
      (he : Prints rules 0 e tokens) : Prints rules p e (['('] :: (tokens ++ [[')']]))

/-- A run of blanks. -/
def Blank (gap : Text) : Prop := ∀ c ∈ gap, isMultispace c = true

/-- **Tokens as a text**: each is followed by any number of blanks. -/
inductive Spaced : List Text → Text → Prop
  | nil : Spaced [] []
  | cons {token tokens gap text} (hgap : Blank gap) (h : Spaced tokens text) :
      Spaced (token :: tokens) (token ++ (gap ++ text))

variable {text : Text} {token : Text}

theorem spaced_cons_iff {tokens : List Text} :
    Spaced (token :: tokens) text ↔
      ∃ gap rest, text = token ++ (gap ++ rest) ∧ Blank gap ∧ Spaced tokens rest := by
  constructor
  · rintro (_ | ⟨hgap, h⟩)
    exact ⟨_, _, rfl, hgap, h⟩
  · rintro ⟨gap, rest, rfl, hgap, h⟩
    exact .cons hgap h

theorem spaced_append_iff {left right : List Text} :
    Spaced (left ++ right) text ↔
      ∃ l r, text = l ++ r ∧ Spaced left l ∧ Spaced right r := by
  induction left generalizing text with
  | nil =>
    constructor
    · intro h
      exact ⟨[], text, rfl, .nil, h⟩
    · rintro ⟨l, r, rfl, (_ | _), h⟩
      exact h
  | cons token left ih =>
    simp only [List.cons_append, spaced_cons_iff, ih]
    constructor
    · rintro ⟨gap, rest, rfl, hgap, l, r, rfl, hl, hr⟩
      exact ⟨token ++ (gap ++ l), r, by simp, ⟨gap, l, rfl, hgap, hl⟩, hr⟩
    · rintro ⟨l, r, rfl, ⟨gap, l', rfl, hgap, hl⟩, hr⟩
      exact ⟨gap, l' ++ r, by simp, hgap, l', r, rfl, hl, hr⟩

theorem spaced_singleton_iff :
    Spaced [token] text ↔ ∃ gap, text = token ++ gap ∧ Blank gap := by
  constructor
  · rintro (_ | ⟨hgap, (_ | _)⟩)
    exact ⟨_, by simp, hgap⟩
  · rintro ⟨gap, rfl, hgap⟩
    simpa using @Spaced.cons token _ _ _ hgap .nil

/-! ## 5. Every expression can be printed -/

end Srs.Script
