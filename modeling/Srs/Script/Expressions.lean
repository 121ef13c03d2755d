/-
# Linker-script expressions

The expression parser of the linker-script reader: one function for each level of operators, each
reading its operands with the next tighter one, down to `parse_unary` and `parse_primary`, which
come back to `parse_expression` inside parentheses and function arguments.

A script's bytes are modelled as characters; nothing here looks at a byte outside ASCII.  A parser
takes the input and returns its value and what is left, so `opt` and `alt`, which go back to where
they started when a branch fails, are a `match` and `<|>` on the result.  The character-class
parsers of the parser library are a parameter (`Winnow`) with their documented behaviour as
hypotheses (`Winnow.Documented`).

The recursion goes down by a depth.  A call of `parse_unary` from itself has consumed a character,
so a depth above the length of the input is never used up, and `parseExpression` starts with that.
-/
import Srs.Lib.Text
import Srs.Lib.Precedence

namespace Srs.Script

open Precedence

/-! ## 1. Expressions -/

inductive SegmentName where
  | text | rodata | data | bss
  /-- Any segment name not in the known set. -/
  | other
  deriving DecidableEq

def SegmentName.fromBytes (name : Text) : SegmentName :=
  if name = "text".toList then .text
  else if name = "rodata".toList then .rodata
  else if name = "data".toList then .data
  else if name = "bss".toList then .bss
  else .other

inductive Expression where
  | number (value : UInt64)
  | symbol (name : Text)
  | locationCounter
  | add (left right : Expression)
  | subtract (left right : Expression)
  | multiply (left right : Expression)
  | divide (left right : Expression)
  | lessThan (left right : Expression)
  | greaterThan (left right : Expression)
  | lessEqual (left right : Expression)
  | greaterEqual (left right : Expression)
  | equal (left right : Expression)
  | notEqual (left right : Expression)
  | sizeof (name : Text)
  | alignof (name : Text)
  | origin (name : Text)
  | length (name : Text)
  | addr (name : Text)
  | loadaddr (name : Text)
  | align (argument : Expression)
  | min (first second : Expression)
  | max (first second : Expression)
  | segmentStart (segment : SegmentName) (otherwise : Expression)
  | bitwiseAnd (left right : Expression)
  | bitwiseOr (left right : Expression)
  | bitwiseXor (left right : Expression)
  | leftShift (left right : Expression)
  | rightShift (left right : Expression)
  | logicalAnd (left right : Expression)
  | logicalOr (left right : Expression)
  | logicalNot (operand : Expression)
  | bitwiseNot (operand : Expression)
  | negate (operand : Expression)
  deriving DecidableEq

/-! ## 2. The parser library -/

/-- What `multispace0` skips. -/
def isMultispace (c : Char) : Bool := c = ' ' || c = '\t' || c = '\r' || c = '\n'

/-- `is_ascii_alphanumeric`, `_` or `.`: what names are made of. -/
def isNameChar (c : Char) : Bool := c.isAlphanum || c = '_' || c = '.'

/-- What a name starts with. -/
def isNameStart (c : Char) : Bool := c.isAlpha || c = '_' || c = '.'

def isHexDigit (c : Char) : Bool :=
  c.isDigit || ('a' ≤ c && c ≤ 'f') || ('A' ≤ c && c ≤ 'F')

def hexDigitValue (c : Char) : Nat :=
  if c.isDigit then c.toNat - '0'.toNat
  else if 'a' ≤ c then c.toNat - 'a'.toNat + 10
  else c.toNat - 'A'.toNat + 10

/-- The value of a run of hexadecimal digits. -/
def hexValue (digits : Text) : Nat := digits.foldl (fun n c => 16 * n + hexDigitValue c) 0

/-- The parsers that the library provides ready-made. -/
structure Winnow where
  multispace0 : Text → Text
  /-- `take_while(1.., class)` -/
  takeWhile1 : (Char → Bool) → Reader Char Text
  /-- `dec_uint::<_, u64, _>` -/
  decUint : Reader Char UInt64
  /-- `hex_uint::<_, u64, _>` -/
  hexUint : Reader Char UInt64

/-- The text does not go on with a character of the class. -/
def EndsAt (isMember : Char → Bool) (t : Text) : Prop := ∀ c ∈ t.head?, isMember c = false

/-- The documented behaviour of the library's parsers, as far as it is relied on. -/
structure Winnow.Documented (w : Winnow) : Prop where
  multispace0 : ∀ t, w.multispace0 t = t.dropWhile isMultispace
  /-- A longest run of at least one member of the class. -/
  takeWhile1 : ∀ {isMember run rest}, run ≠ [] → (∀ c ∈ run, isMember c = true) →
    EndsAt isMember rest → w.takeWhile1 isMember (run ++ rest) = some (run, rest)
  /-- A decimal number without leading zeros that fits. -/
  decUint : ∀ {digits rest}, digits ≠ [] → (∀ c ∈ digits, c.isDigit = true) →
    (digits.head? = some '0' → digits = ['0']) → Nat.ofDigitChars 10 digits 0 < 2 ^ 64 →
    EndsAt Char.isDigit rest →
    w.decUint (digits ++ rest) = some (UInt64.ofNat (Nat.ofDigitChars 10 digits 0), rest)
  decUint_eq_none : ∀ {t}, EndsAt Char.isDigit t → w.decUint t = none
  /-- A hexadecimal number of at most as many digits as the type has nibbles. -/
  hexUint : ∀ {digits rest}, digits ≠ [] → digits.length ≤ 16 →
    (∀ c ∈ digits, isHexDigit c = true) → EndsAt isHexDigit rest →
    w.hexUint (digits ++ rest) = some (UInt64.ofNat (hexValue digits), rest)

/-- A literal: what follows it. -/
def literal (expected input : Text) : Option Text :=
  if expected <+: input then some (input.drop expected.length) else none

/-- `(first, not(second))` for two characters. -/
def loneChar (first second : Char) (input : Text) : Option Text :=
  match literal [first] input with
  | none => none
  | some rest => if (literal [second] rest).isSome then none else some rest

/-- `alt` of literals, each mapped to its meaning. -/
def firstLiteral {β : Type} : List (Text × β) → Reader Char β
  | [], _ => none
  | (expected, meaning) :: others, input =>
    match literal expected input with
    | some rest => some (meaning, rest)
    | none => firstLiteral others input

/-! ## 3. The operators of each level -/

/-- What reading an infix operator gives: how the operands are put together. -/
abbrev Operator := Reader Char (Expression → Expression → Expression)

/-- `||` -/
def logicalOrOperator : Operator := firstLiteral [("||".toList, .logicalOr)]

/-- `&&` -/
def logicalAndOperator : Operator := firstLiteral [("&&".toList, .logicalAnd)]

/-- `CompOp`: the longer operators are tried first. -/
def comparisonOperator : Operator := firstLiteral [
  ("<=".toList, .lessEqual), (">=".toList, .greaterEqual), ("==".toList, .equal),
  ("!=".toList, .notEqual), (['<'], .lessThan), (['>'], .greaterThan)]

/-- `|` that is not the start of `||` -/
def bitwiseOrOperator : Operator := fun input =>
  (loneChar '|' '|' input).map fun rest => (.bitwiseOr, rest)

/-- `^` -/
def bitwiseXorOperator : Operator := firstLiteral [(['^'], .bitwiseXor)]

/-- `&` that is not the start of `&&` -/
def bitwiseAndOperator : Operator := fun input =>
  (loneChar '&' '&' input).map fun rest => (.bitwiseAnd, rest)

/-- `ShiftOp` -/
def shiftOperator : Operator :=
  firstLiteral [("<<".toList, .leftShift), (">>".toList, .rightShift)]

/-- `AddOp` -/
def additiveOperator : Operator := firstLiteral [(['+'], .add), (['-'], .subtract)]

/-- `MulOp` -/
def multiplicativeOperator : Operator := firstLiteral [(['*'], .multiply), (['/'], .divide)]

/-! ## 4. The levels -/

variable (w : Winnow)

section Levels

variable (parseUnary : Reader Char Expression)

def parseMultiplicative : Reader Char Expression :=
  leftAssociative w.multispace0 multiplicativeOperator parseUnary

def parseAdditive : Reader Char Expression :=
  leftAssociative w.multispace0 additiveOperator (parseMultiplicative w parseUnary)

def parseShift : Reader Char Expression :=
  leftAssociative w.multispace0 shiftOperator (parseAdditive w parseUnary)

def parseBitwiseAnd : Reader Char Expression :=
  leftAssociative w.multispace0 bitwiseAndOperator (parseShift w parseUnary)

def parseBitwiseXor : Reader Char Expression :=
  leftAssociative w.multispace0 bitwiseXorOperator (parseBitwiseAnd w parseUnary)

def parseBitwiseOr : Reader Char Expression :=
  leftAssociative w.multispace0 bitwiseOrOperator (parseBitwiseXor w parseUnary)

/-- One comparison at most: an `if let` where the other levels have a `while let`. -/
def parseComparison : Reader Char Expression :=
  atMostOne w.multispace0 comparisonOperator (parseBitwiseOr w parseUnary)

def parseLogicalAnd : Reader Char Expression :=
  leftAssociative w.multispace0 logicalAndOperator (parseComparison w parseUnary)

def parseLogicalOr : Reader Char Expression :=
  leftAssociative w.multispace0 logicalOrOperator (parseLogicalAnd w parseUnary)

/-- `parse_expression`, over the `parse_unary` it comes down to. -/
def parseExpressionOver : Reader Char Expression := parseLogicalOr w parseUnary

end Levels

/-! ## 5. Primaries -/

/-- The optional suffix of a number. -/
def withSuffix (baseNumber : UInt64) : Text → Expression × Text
  | 'K' :: rest | 'k' :: rest => (.number (baseNumber * 1024), rest)
  | 'M' :: rest | 'm' :: rest => (.number (baseNumber * (1024 * 1024)), rest)
  | input => (.number baseNumber, input)

/-- Hex and decimal numbers, with an optional K (x1024) or M (x1024^2) suffix. -/
def parseNumberWithSuffix : Reader Char Expression := fun input => do
  let (baseNumber, input) ←
    ((literal "0x".toList input <|> literal "0X".toList input).bind w.hexUint) <|>
      w.decUint input
  some (withSuffix baseNumber input)

/-- `take_while` of name characters, verified to start like a name. -/
def takeName : Reader Char Text := fun input => do
  let (name, input) ← w.takeWhile1 isNameChar input
  if name.head?.any isNameStart then some (name, input) else none

/-- A function argument: a section or region name up to the closing parenthesis. -/
def parseFunctionArg : Reader Char Text := fun input => do
  let (arg, input) ← takeName w (w.multispace0 input)
  let input ← literal [')'] (w.multispace0 input)
  some (arg, input)

/-- A function of a name. -/
def parseNamed (build : Text → Expression) : Reader Char Expression := fun input =>
  (parseFunctionArg w input).map fun (arg, rest) => (build arg, rest)

section Primaries

variable (parseExpression : Reader Char Expression)

/-- `ALIGN` -/
def parseAlign : Reader Char Expression := fun input => do
  let (argument, input) ← parseExpression input
  let input ← literal [')'] (w.multispace0 input)
  some (.align argument, input)

/-- `MIN` and `MAX` take two expressions separated by a comma. -/
def parsePair (build : Expression → Expression → Expression) : Reader Char Expression :=
  fun input => do
    let (first, input) ← parseExpression input
    let input ← literal [','] (w.multispace0 input)
    let (second, input) ← parseExpression (w.multispace0 input)
    let input ← literal [')'] (w.multispace0 input)
    some (build first second, input)

/-- `SEGMENT_START("name", default)` -/
def parseSegmentStart : Reader Char Expression := fun input => do
  let input ← literal ['"'] (w.multispace0 input)
  let (name, input) ← w.takeWhile1 (· != '"') input
  let input ← literal ['"'] input
  let input ← literal [','] (w.multispace0 input)
  let (otherwise, input) ← parseExpression (w.multispace0 input)
  let input ← literal [')'] (w.multispace0 input)
  some (.segmentStart (SegmentName.fromBytes name) otherwise, input)

/-- The arguments of the function with this name. -/
def parseCall (ident : Text) : Reader Char Expression :=
  if ident = "SIZEOF".toList then parseNamed w .sizeof
  else if ident = "ALIGNOF".toList then parseNamed w .alignof
  else if ident = "ADDR".toList then parseNamed w .addr
  else if ident = "ORIGIN".toList then parseNamed w .origin
  else if ident = "LENGTH".toList then parseNamed w .length
  else if ident = "LOADADDR".toList then parseNamed w .loadaddr
  else if ident = "ALIGN".toList then parseAlign w parseExpression
  else if ident = "MIN".toList then parsePair w parseExpression .min
  else if ident = "MAX".toList then parsePair w parseExpression .max
  else if ident = "SEGMENT_START".toList then parseSegmentStart w parseExpression
  else fun _ => none

/-- An identifier: a symbol or a function call. -/
def parseIdentifierOrFunction : Reader Char Expression := fun input => do
  let (ident, input) ← takeName w input
  -- just '.' is the location counter
  if ident = ['.'] then some (.locationCounter, input)
  else
    let input := w.multispace0 input
    match literal ['('] input with
    | some input => parseCall w parseExpression ident (w.multispace0 input)
    | none => some (.symbol ident, input)

/-- `delimited('(', parse_expression, ')')` -/
def parseParenthesised : Reader Char Expression := fun input => do
  let input ← literal ['('] input
  let (inner, input) ← parseExpression input
  let input ← literal [')'] input
  some (inner, input)

def parsePrimary : Reader Char Expression := fun input =>
  let input := w.multispace0 input
  parseParenthesised parseExpression input <|> parseNumberWithSuffix w input <|>
    parseIdentifierOrFunction w parseExpression input

end Primaries

/-! ## 6. The recursion -/

/-- Unary prefix operators: `!` (but not `!=`), `~`, `-`. -/
def parseUnary : Nat → Reader Char Expression
  | 0, _ => none
  | depth + 1, input =>
    let input := w.multispace0 input
    match loneChar '!' '=' input with
    | some input => (parseUnary depth input).map fun (operand, rest) => (.logicalNot operand, rest)
    | none =>
      match literal ['~'] input with
      | some input =>
        (parseUnary depth input).map fun (operand, rest) => (.bitwiseNot operand, rest)
      | none =>
        match literal ['-'] input with
        | some input => (parseUnary depth input).map fun (operand, rest) => (.negate operand, rest)
        | none => parsePrimary w (parseExpressionOver w (parseUnary depth)) input

/-- `parse_expression` -/
def parseExpression : Reader Char Expression := fun input =>
  parseExpressionOver w (parseUnary w (input.length + 1)) input

end Srs.Script
