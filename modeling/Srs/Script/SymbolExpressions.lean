/-
# Sums of numbers and symbols

`--defsym` and `PROVIDE` read an expression such as `symbol+0x40` with one scan over its characters
(`parseSymbolExpression`).  The scan knows the sign in front of the current token and where the
token starts; a token that is a number is added to the offset, and the first one that is not is the
symbol.

What a text means is said apart from the scan: it is a list of signed terms, and a term is a numeral
or the name of a symbol (`SumText.signedSum`).  Every later name is dropped by the scan, and so is
the sign of the first; a numeral that does not fit 64 bits is read as a name.
`denotesSum_iff_onlyFirstCounts` says for which texts this makes no difference.
-/
import Mathlib.Data.List.TakeWhile
import Mathlib.Algebra.BigOperators.Group.Finset.Basic
import Mathlib.Algebra.BigOperators.Group.Finset.Piecewise
import Srs.Lib.HexText
import Srs.Script.Expressions
import Srs.Layout.Redirects

namespace Srs.Script.SymbolExpressions

open Bytes List Option

/-! ## 1. The parser -/

/-- `char::is_whitespace`: the Unicode property `White_Space`. -/
def isWhiteSpace (c : Char) : Bool :=
  (9 ≤ c.toNat && c.toNat ≤ 13) || c.toNat = 0x20 || c.toNat = 0x85 || c.toNat = 0xA0
    || c.toNat = 0x1680 || (0x2000 ≤ c.toNat && c.toNat ≤ 0x200A) || c.toNat = 0x2028
    || c.toNat = 0x2029 || c.toNat = 0x202F || c.toNat = 0x205F || c.toNat = 0x3000

/-- `str::trim` -/
def trim (t : Text) : Text :=
  ((t.dropWhile isWhiteSpace).reverse.dropWhile isWhiteSpace).reverse

/-- The digits of `u64::from_str_radix(_, 16)`: at least one, and nothing else. -/
def parseHexDigits (t : Text) : Option Nat :=
  if t ≠ [] ∧ t.all isHexDigit = true then some (hexValue t) else none

/-- `u64::from_str_radix(_, 16)`: a leading `+` is accepted. -/
def parseHex (t : Text) : Option UInt64 :=
  (match t with
    | '+' :: digits => parseHexDigits digits
    | _ => parseHexDigits t).bind fun n => if n < 2 ^ 64 then some (UInt64.ofNat n) else none

/-- Interprets a `0x` prefix as hexadecimal, otherwise decimal. -/
def parseNumber (s : Text) : Option UInt64 :=
  match s with
  | '0' :: 'x' :: hex => parseHex hex
  | _ => Text.parseUnsigned UInt64.size UInt64.ofNat s

inductive ParsedSymbolExpression where
  /-- An absolute numeric value. -/
  | absolute (value : UInt64)
  /-- A symbol reference with an optional offset. -/
  | symbolWithOffset (symbol : Text) (offset : Int64)
  deriving DecidableEq

def ParsedSymbolExpression.toPlacement : ParsedSymbolExpression → Redirects.SymbolPlacement
  | absolute value => .defsymAbsolute value
  | symbolWithOffset symbol offset => .redirect ⟨.script, utf8 symbol, offset⟩

/-- The scan in the middle of the text: `token` is what was read since `token_start`. -/
structure Scan where
  symbol : Option Text
  offset : Int64
  token : Text
  currentSign : Int64
  deriving DecidableEq

/-- A token is at its end.  The products and sums are those of a build without overflow checks. -/
def Scan.finishToken (scan : Scan) : Scan :=
  let token := trim scan.token
  match parseNumber token with
  | some val => { scan with offset := scan.offset + scan.currentSign * val.toInt64 }
  | none =>
    if scan.symbol = none ∧ token ≠ [] then { scan with symbol := some token } else scan

/-- One turn of the loop. -/
def Scan.read (scan : Scan) (ch : Char) : Scan :=
  if ch = '+' ∨ ch = '-' then
    { scan.finishToken with currentSign := if ch = '+' then 1 else -1, token := [] }
  else { scan with token := scan.token ++ [ch] }

/-- What the parser returns, from the symbol and the offset. -/
def ParsedSymbolExpression.new : Option Text × Int64 → ParsedSymbolExpression
  | (some symbol, offset) => .symbolWithOffset symbol offset
  | (none, offset) => .absolute offset.toUInt64

def parseSymbolExpression (s : Text) : ParsedSymbolExpression :=
  let scan := match s with
    | '-' :: rest => rest.foldl Scan.read ⟨none, 0, [], -1⟩
    | '+' :: rest => rest.foldl Scan.read ⟨none, 0, [], 1⟩
    | _ => s.foldl Scan.read ⟨none, 0, [], 1⟩
  let scan := scan.finishToken
  .new (scan.symbol, scan.offset)

/-! ## 2. What a text means -/

inductive Sign where
  | plus
  | minus
  deriving DecidableEq

namespace Sign

def char : Sign → Char
  | plus => '+'
  | minus => '-'

/-- One, or minus one. -/
def weight : Sign → UInt64
  | plus => 1
  | minus => -1

end Sign

/-- Blanks around a token. -/
abbrev Blanks := { t : Text // ∀ c ∈ t, isWhiteSpace c = true }

/-- What a number or the name of a symbol is spelled with. -/
abbrev Token := { t : Text // t ≠ [] ∧ ∀ c ∈ t, isWhiteSpace c = false ∧ c ≠ '+' ∧ c ≠ '-' }

structure Term where
  before : Blanks
  token : Token
  after : Blanks

def Term.text (term : Term) : Text := term.before.val ++ term.token.val ++ term.after.val

/-- One or more terms joined by signs, with a sign in front or not. -/
structure SumText where
  lead : Option (Blanks × Sign)
  first : Term
  others : List (Sign × Term)

namespace SumText

def text (e : SumText) : Text :=
  (match e.lead with
    | none => []
    | some (blanks, sign) => blanks.val ++ [sign.char])
    ++ e.first.text ++ e.others.flatMap fun (sign, term) => sign.char :: term.text

/-- The tokens with the signs in front of them. -/
def terms (e : SumText) : List (Sign × Text) :=
  ((match e.lead with
    | none => Sign.plus
    | some (_, sign) => sign), e.first.token.val)
    :: e.others.map fun (sign, term) => (sign, term.token.val)

end SumText

/-- The number that a numeral stands for, of whatever size; nothing for any other token. -/
def numeral? (token : Text) : Option Nat :=
  match token with
  | '0' :: 'x' :: hex => parseHexDigits hex
  | _ => Text.parseDigits token

/-- The value of a token, modulo `2^64`, where every symbol has a value. -/
def tokenValue (symbols : Bytes → UInt64) (token : Text) : UInt64 :=
  match numeral? token with
  | some n => UInt64.ofNat n
  | none => symbols (utf8 token)

def SumText.signedSum (symbols : Bytes → UInt64) (e : SumText) : UInt64 :=
  (e.terms.map fun (sign, token) => sign.weight * tokenValue symbols token).sum

/-- The value of a symbol that is placed so. -/
def placementValue (symbols : Bytes → UInt64) : Redirects.SymbolPlacement → Option UInt64
  | .defsymAbsolute value => some value
  | .redirect redirect => some (redirect.apply (symbols redirect.targetName))
  | _ => none

/-- Whatever the values of the symbols are, the text is read as the sum of its terms. -/
def DenotesSum (e : SumText) : Prop :=
  ∀ symbols : Bytes → UInt64,
    placementValue symbols (parseSymbolExpression e.text).toPlacement
      = some (e.signedSum symbols)

/-! ## 3. When the text is read as what it means -/

/-- How often a token stands in a list of terms, less how often it is subtracted. -/
def netCount (terms : List (Sign × Text)) (token : Text) : UInt64 :=
  ((terms.filter fun term => term.2 = token).map fun term => term.1.weight).sum

namespace SumText

/-- The terms that are not numbers of 64 bits. -/
def unread (e : SumText) : List (Sign × Text) :=
  e.terms.filter fun term => parseNumber term.2 = none

/-- The signed sum of the numerals that do not fit 64 bits. -/
def oversized (e : SumText) : UInt64 :=
  (e.unread.map fun term =>
    match numeral? term.2 with
    | some n => term.1.weight * UInt64.ofNat n
    | none => 0).sum

/-- Of the terms that are not numbers of 64 bits only the first counts, and with a plus: it is a
name that is left once when what is added and subtracted is set off, no other name is left, and the
numerals among them cancel. -/
structure OnlyFirstCounts (e : SumText) : Prop where
  firstIsName : ∀ term ∈ e.unread.head?, numeral? term.2 = none
  namesCancel : ∀ term ∈ e.unread, numeral? term.2 = none →
    netCount e.unread term.2 = if e.unread.head?.map Prod.snd = some term.2 then 1 else 0
  oversizedCancel : e.oversized = 0

end SumText

/-! ## 4. Numerals -/

variable {token : Text}

/-- A token is read as a number if and only if it is a numeral that fits. -/
theorem parseNumber_token (h : '+' ∉ token) :
    parseNumber token = (numeral? token).bind fun n =>
      if n < 2 ^ 64 then some (UInt64.ofNat n) else none := by
  unfold parseNumber numeral?
  split
  case h_1 hex =>
    unfold parseHex
    split
    · simp at h
    · rfl
  case h_2 =>
    have hnat : Text.parseNat token = Text.parseDigits token := by
      unfold Text.parseNat
      split
      · simp at h
      · rfl
    simp [Text.parseUnsigned, hnat, UInt64.size]

theorem numeral?_of_parseNumber {val : UInt64} (h : '+' ∉ token)
    (hval : parseNumber token = some val) :
    ∃ n, numeral? token = some n ∧ UInt64.ofNat n = val := by
  rw [parseNumber_token h, bind_eq_some_iff] at hval
  obtain ⟨n, hn, hval⟩ := hval
  split at hval
  · exact ⟨n, hn, some.inj hval⟩
  · exact absurd hval (by simp)

/-! ## 5. The scan over a text goes over its terms -/

namespace Sign

def toInt64 : Sign → Int64
  | plus => 1
  | minus => -1

end Sign

/-- What the scan does with a term: the symbol and the offset it has after it. -/
def addTerm (acc : Option Text × Int64) (term : Sign × Text) : Option Text × Int64 :=
  match parseNumber term.2 with
  | some val => (acc.1, acc.2 + term.1.toInt64 * val.toInt64)
  | none => (acc.1 <|> some term.2, acc.2)

theorem trim_of_blank {t : Text} (h : ∀ c ∈ t, isWhiteSpace c = true) : trim t = [] := by
  have hall : t.dropWhile isWhiteSpace = [] := dropWhile_eq_nil_iff.mpr h
  simp [trim, hall]

theorem dropWhile_append_of_blank {t rest : Text} (h : ∀ c ∈ t, isWhiteSpace c = true) :
    (t ++ rest).dropWhile isWhiteSpace = rest.dropWhile isWhiteSpace :=
  dropWhile_append_of_pos h

theorem dropWhile_of_ink {t rest : Text} (hne : t ≠ []) (h : ∀ c ∈ t, isWhiteSpace c = false) :
    (t ++ rest).dropWhile isWhiteSpace = t ++ rest := by
  cases t with
  | nil => exact absurd rfl hne
  | cons c t => simp [h c]

theorem Term.trim_text (term : Term) : trim term.text = term.token.val := by
  have hne := term.token.property.1
  have hink : ∀ c ∈ term.token.val, isWhiteSpace c = false :=
    fun c hc => (term.token.property.2 c hc).1
  rw [trim, Term.text, List.append_assoc, dropWhile_append_of_blank term.before.property,
    dropWhile_of_ink hne hink, reverse_append,
    dropWhile_append_of_blank (by simpa using term.after.property)]
  have hback := @dropWhile_of_ink term.token.val.reverse [] (by simpa using hne)
    (by simpa using hink)
  rw [append_nil] at hback
  rw [hback, reverse_reverse]

theorem not_sign_of_isWhiteSpace {c : Char} (h : isWhiteSpace c = true) :
    ¬ (c = '+' ∨ c = '-') := by
  rintro (rfl | rfl) <;> exact absurd h (by decide)

theorem Term.not_sign_of_mem_text {term : Term} {c : Char} (h : c ∈ term.text) :
    ¬ (c = '+' ∨ c = '-') := by
  simp only [Term.text, mem_append] at h
  rcases h with (h | h) | h
  · exact not_sign_of_isWhiteSpace (term.before.property c h)
  · simpa using (term.token.property.2 c h).2
  · exact not_sign_of_isWhiteSpace (term.after.property c h)

/-- Up to the next sign the scan only remembers what it reads. -/
theorem foldl_read_of_no_sign : ∀ {t : Text} {scan : Scan}, (∀ c ∈ t, ¬ (c = '+' ∨ c = '-')) →
    t.foldl Scan.read scan = { scan with token := scan.token ++ t }
  | [], scan, _ => by simp
  | c :: t, scan, h => by
    rw [foldl_cons, foldl_read_of_no_sign fun c hc => h c (by simp [hc]), Scan.read,
      if_neg (h c (by simp))]
    simp

variable {scan : Scan}

/-- A token with nothing but blanks changes nothing. -/
theorem Scan.finishToken_of_blank (h : ∀ c ∈ scan.token, isWhiteSpace c = true) :
    scan.finishToken = scan := by
  have hnone : parseNumber [] = none := by decide
  simp [Scan.finishToken, trim_of_blank h, hnone]

theorem Scan.read_sign (scan : Scan) (sign : Sign) :
    scan.read sign.char = { scan.finishToken with currentSign := sign.toInt64, token := [] } := by
  cases sign <;> simp [Scan.read, Sign.char, Sign.toInt64]

theorem Scan.finishToken_of_token {sign : Sign} (hne : token ≠ [])
    (hsign : scan.currentSign = sign.toInt64) (htoken : trim scan.token = token) :
    (scan.finishToken.symbol, scan.finishToken.offset)
      = addTerm (scan.symbol, scan.offset) (sign, token) := by
  simp only [Scan.finishToken, addTerm, htoken, hsign]
  cases parseNumber token with
  | some val => rfl
  | none => cases hsymbol : scan.symbol <;> simp [hne, hsymbol]

/-- The scan has read the text of a term and goes on with the terms after it. -/
theorem foldl_read_others : ∀ {others : List (Sign × Term)} {scan : Scan} {sign : Sign}
    {term : Term}, scan.currentSign = sign.toInt64 → trim scan.token = term.token.val →
    let last := ((others.flatMap fun (sign, term) => sign.char :: term.text).foldl
      Scan.read scan).finishToken
    (last.symbol, last.offset)
      = (others.map fun (sign, term) => (sign, term.token.val)).foldl addTerm
          (addTerm (scan.symbol, scan.offset) (sign, term.token.val))
  | [], scan, sign, term, hsign, htoken => by
    simpa using Scan.finishToken_of_token term.token.property.1 hsign htoken
  | (nextSign, next) :: others, scan, sign, term, hsign, htoken => by
    have hdone := Scan.finishToken_of_token term.token.property.1 hsign htoken
    simp only [flatMap_cons, cons_append, foldl_cons, foldl_append,
      Scan.read_sign, map_cons, ← hdone]
    rw [foldl_read_of_no_sign fun c hc => Term.not_sign_of_mem_text hc]
    exact foldl_read_others rfl (by simpa using next.trim_text)

/-- The whole text after its leading sign. -/
theorem foldl_read_terms {blanks : Text} (hblanks : ∀ c ∈ blanks, isWhiteSpace c = true)
    {sign : Sign} {symbol : Option Text} {offset : Int64} (first : Term)
    (others : List (Sign × Term)) :
    let last := ((first.text ++ others.flatMap fun (sign, term) => sign.char :: term.text).foldl
      Scan.read ⟨symbol, offset, blanks, sign.toInt64⟩).finishToken
    (last.symbol, last.offset)
      = ((sign, first.token.val) :: others.map fun (sign, term) => (sign, term.token.val)).foldl
          addTerm (symbol, offset) := by
  have htrim : trim (blanks ++ first.text) = first.token.val := by
    let wider : Term := ⟨⟨blanks ++ first.before.val, fun c hc =>
      (mem_append.mp hc).elim (hblanks c) (first.before.property c)⟩, first.token, first.after⟩
    have hwider : blanks ++ first.text = wider.text := by simp [Term.text, wider]
    rw [hwider, wider.trim_text]
  rw [foldl_append, foldl_read_of_no_sign fun c hc => Term.not_sign_of_mem_text hc]
  exact foldl_read_others rfl htrim

/-- A text that does not start with a sign. -/
theorem parseSymbolExpression_of_no_sign {s : Text} (h : ∀ c ∈ s.head?, ¬ (c = '+' ∨ c = '-')) :
    parseSymbolExpression s =
      let scan := (s.foldl Scan.read ⟨none, 0, [], 1⟩).finishToken
      .new (scan.symbol, scan.offset) := by
  cases s with
  | nil => rfl
  | cons c t =>
    have hc := not_or.mp (h c (by simp))
    unfold parseSymbolExpression
    split
    case h_1 heq => exact absurd (List.cons.inj heq).1 hc.2
    case h_2 heq => exact absurd (List.cons.inj heq).1 hc.1
    case h_3 => rfl

theorem Term.head?_text (term : Term) : ∀ (rest : Text), ∀ c ∈ (term.text ++ rest).head?,
    ¬ (c = '+' ∨ c = '-') := by
  intro rest c hc
  have hne : term.text ≠ [] := by simp [Term.text, term.token.property.1]
  rw [head?_append_of_ne_nil _ hne] at hc
  exact term.not_sign_of_mem_text (mem_of_mem_head? hc)

/-- **The parser adds up the terms of the text.** -/
theorem parseSymbolExpression_text (e : SumText) :
    parseSymbolExpression e.text = .new (e.terms.foldl addTerm (none, 0)) := by
  obtain ⟨lead, first, others⟩ := e
  have hterms := fun sign : Sign =>
    @foldl_read_terms [] (by simp) sign none 0 first others
  cases lead with
  | none =>
    simp only [SumText.text, SumText.terms, nil_append]
    rw [parseSymbolExpression_of_no_sign (first.head?_text _)]
    exact congrArg ParsedSymbolExpression.new (hterms .plus)
  | some lead =>
    obtain ⟨⟨blanks, hblanks⟩, sign⟩ := lead
    simp only [SumText.text, SumText.terms, List.append_assoc]
    rw [← hterms sign]
    cases blanks with
    | nil => cases sign <;> rfl
    | cons c blanks =>
      have hhead : ∀ d ∈ (c :: blanks ++ ([sign.char] ++ (first.text ++
          others.flatMap fun (sign, term) => sign.char :: term.text))).head?,
          ¬ (d = '+' ∨ d = '-') := by
        intro d hd
        obtain rfl : c = d := by simpa using hd
        exact not_sign_of_isWhiteSpace (hblanks c (by simp))
      have hblank : Scan.finishToken ⟨none, 0, c :: blanks, 1⟩ = ⟨none, 0, c :: blanks, 1⟩ :=
        Scan.finishToken_of_blank hblanks
      rw [parseSymbolExpression_of_no_sign hhead, foldl_append,
        foldl_read_of_no_sign fun d hd => not_sign_of_isWhiteSpace (hblanks d hd),
        cons_append, foldl_cons, Scan.read_sign, nil_append, hblank]
      rfl

/-! ## 6. What the terms add up to -/

/-- The signed sum of the terms that are numbers of 64 bits. -/
def readSum (terms : List (Sign × Text)) : UInt64 :=
  (terms.map fun term =>
    match parseNumber term.2 with
    | some val => term.1.weight * val
    | none => 0).sum

/-- The signed sum of the terms that are not. -/
def unreadSum (symbols : Bytes → UInt64) (terms : List (Sign × Text)) : UInt64 :=
  ((terms.filter fun term => parseNumber term.2 = none).map fun term =>
    term.1.weight * tokenValue symbols term.2).sum

theorem toUInt64_sign_mul (sign : Sign) (val : UInt64) :
    (sign.toInt64 * val.toInt64).toUInt64 = sign.weight * val := by
  cases sign <;> simp [← UInt64.toBitVec_inj, Sign.toInt64, Sign.weight]

theorem foldl_addTerm : ∀ (terms : List (Sign × Text)) (acc : Option Text × Int64),
    (terms.foldl addTerm acc).1
        = (acc.1 <|> (terms.filter fun term => parseNumber term.2 = none).head?.map Prod.snd) ∧
      (terms.foldl addTerm acc).2.toUInt64 = acc.2.toUInt64 + readSum terms
  | [], acc => by simp [readSum]
  | term :: terms, acc => by
    obtain ⟨hsymbol, hoffset⟩ := foldl_addTerm terms (addTerm acc term)
    rw [foldl_cons, hsymbol, hoffset]
    unfold addTerm readSum
    cases hval : parseNumber term.2 with
    | some val =>
      have hadded : (acc.2 + term.1.toInt64 * val.toInt64).toUInt64
          = acc.2.toUInt64 + term.1.weight * val := by
        rw [Int64.toUInt64_add, toUInt64_sign_mul]
      simp only [map_cons, sum_cons, hval, hadded]
      simp [hval, add_assoc]
    | none => cases acc.1 <;> simp [hval]

theorem signedSum_eq (symbols : Bytes → UInt64) {terms : List (Sign × Text)}
    (h : ∀ term ∈ terms, '+' ∉ term.2) :
    (terms.map fun (sign, token) => sign.weight * tokenValue symbols token).sum
      = readSum terms + unreadSum symbols terms := by
  induction terms with
  | nil => simp [readSum, unreadSum]
  | cons term terms ih =>
    have hplus := h term (by simp)
    rw [map_cons, sum_cons, ih fun t ht => h t (by simp [ht])]
    unfold readSum unreadSum
    cases hval : parseNumber term.2 with
    | some val =>
      obtain ⟨n, hn, rfl⟩ := numeral?_of_parseNumber hplus hval
      have hvalue : tokenValue symbols term.2 = UInt64.ofNat n := by simp [tokenValue, hn]
      simp [hval, hvalue, add_assoc]
    | none => simp [hval, add_left_comm]

/-- The value of what the parser returns. -/
theorem placementValue_parse (symbols : Bytes → UInt64) (e : SumText) :
    placementValue symbols (parseSymbolExpression e.text).toPlacement
      = some (readSum e.terms
          + match e.unread.head? with
            | some term => symbols (utf8 term.2)
            | none => 0) := by
  obtain ⟨hsymbol, hoffset⟩ := foldl_addTerm e.terms (none, 0)
  rw [parseSymbolExpression_text, SumText.unread]
  have hzero : (0 : Int64).toUInt64 = 0 := rfl
  generalize e.terms.foldl addTerm (none, 0) = acc at hsymbol hoffset
  obtain ⟨symbol, offset⟩ := acc
  cases hfirst : (e.terms.filter fun term => parseNumber term.2 = none).head? with
  | none =>
    obtain rfl : symbol = none := by simpa [hfirst] using hsymbol
    simpa [ParsedSymbolExpression.new, ParsedSymbolExpression.toPlacement, placementValue,
      hzero] using hoffset
  | some term =>
    obtain rfl : symbol = some term.2 := by simpa [hfirst] using hsymbol
    have hvalue : offset.toUInt64 = readSum e.terms := by simpa [hzero] using hoffset
    simp [ParsedSymbolExpression.new, ParsedSymbolExpression.toPlacement, placementValue,
      Redirects.Redirect.apply, hvalue, add_comm]

/-- The signed sum of the names among the terms. -/
def namesSum (symbols : Bytes → UInt64) (terms : List (Sign × Text)) : UInt64 :=
  (terms.map fun term =>
    match numeral? term.2 with
    | some _ => 0
    | none => term.1.weight * symbols (utf8 term.2)).sum

theorem unreadSum_eq (symbols : Bytes → UInt64) (e : SumText) :
    unreadSum symbols e.terms = e.oversized + namesSum symbols e.unread := by
  unfold unreadSum SumText.oversized namesSum
  change (e.unread.map _).sum = _
  generalize e.unread = terms
  induction terms with
  | nil => simp
  | cons term terms ih =>
    simp only [map_cons, sum_cons, ih]
    cases hn : numeral? term.2 with
    | some n => simp [tokenValue, hn, add_assoc]
    | none => simp [tokenValue, hn, add_left_comm]

theorem netCount_cons (term : Sign × Text) (terms : List (Sign × Text)) (token : Text) :
    netCount (term :: terms) token
      = (if term.2 = token then term.1.weight else 0) + netCount terms token := by
  unfold netCount
  by_cases h : term.2 = token <;> simp [h]

/-- The names of a list of terms, each counted as often as it is left. -/
theorem namesSum_eq (symbols : Bytes → UInt64) (names : Finset Text) :
    ∀ {terms : List (Sign × Text)}, (∀ term ∈ terms, numeral? term.2 = none ↔ term.2 ∈ names) →
      namesSum symbols terms = ∑ name ∈ names, netCount terms name * symbols (utf8 name)
  | [], _ => by simp [namesSum, netCount]
  | term :: terms, h => by
    have ih := namesSum_eq symbols names fun t ht => h t (mem_cons_of_mem _ ht)
    have hterm := h term (by simp)
    unfold namesSum at ih ⊢
    simp only [map_cons, sum_cons, ih, netCount_cons, add_mul, ite_mul, zero_mul,
      Finset.sum_add_distrib, Finset.sum_ite_eq]
    congr 1
    cases hn : numeral? term.2 with
    | some n => rw [if_neg fun hmem => by simp [hterm.mpr hmem] at hn]
    | none => rw [if_pos (hterm.mp hn)]

/-- The names among the terms that are not numbers of 64 bits. -/
def SumText.names (e : SumText) : Finset Text :=
  ((e.unread.filter fun term => numeral? term.2 = none).map Prod.snd).toFinset

theorem SumText.mem_names {e : SumText} {term : Sign × Text} (h : term ∈ e.unread) :
    numeral? term.2 = none ↔ term.2 ∈ e.names := by
  simp only [names, List.mem_toFinset, List.mem_map, mem_filter, decide_eq_true_eq]
  constructor
  · intro hnone
    exact ⟨term, ⟨h, hnone⟩, rfl⟩
  · rintro ⟨other, ⟨-, hnone⟩, heq⟩
    rwa [← heq]

/-- The text is read as its sum when the terms left unread amount to the first of them. -/
theorem denotesSum_iff_unread (e : SumText) :
    DenotesSum e ↔ ∀ symbols : Bytes → UInt64,
      (match e.unread.head? with
        | some term => symbols (utf8 term.2)
        | none => 0)
      = e.oversized + ∑ name ∈ e.names, netCount e.unread name * symbols (utf8 name) := by
  have hplus : ∀ term ∈ e.terms, '+' ∉ term.2 := by
    intro term hterm
    have hmem : ∃ token : Token, term.2 = token.val := by
      rcases mem_cons.mp hterm with rfl | hterm
      · exact ⟨e.first.token, rfl⟩
      · obtain ⟨other, -, rfl⟩ := mem_map.mp hterm
        exact ⟨other.2.token, rfl⟩
    obtain ⟨token, htoken⟩ := hmem
    rw [htoken]
    exact fun hc => (token.property.2 _ hc).2.1 rfl
  refine forall_congr' fun symbols => ?_
  rw [placementValue_parse, SumText.signedSum, signedSum_eq symbols hplus, unreadSum_eq,
    namesSum_eq symbols e.names fun term hterm => SumText.mem_names hterm, some.injEq]
  exact add_right_inj _

/-- **The texts that are read as the sum of their terms.** -/
theorem denotesSum_iff_onlyFirstCounts (e : SumText) : DenotesSum e ↔ e.OnlyFirstCounts := by
  rw [denotesSum_iff_unread]
  constructor
  · intro h
    -- With all symbols at zero only the oversized numerals are left.
    have hoversized : e.oversized = 0 := by
      have hzero := h fun _ => 0
      cases hfirst : e.unread.head? <;> simpa [hfirst] using hzero.symm
    -- With one token at one and the others at zero, the count of that token is left.
    have hone : ∀ token : Text,
        (if e.unread.head?.map Prod.snd = some token then 1 else 0)
          = if token ∈ e.names then netCount e.unread token else 0 := by
      intro token
      have hsingle := h fun name => if name = utf8 token then 1 else 0
      simp only [utf8_inj, mul_ite, mul_one, mul_zero, Finset.sum_ite_eq', hoversized,
        zero_add] at hsingle
      rw [← hsingle]
      cases e.unread.head? <;> simp
    refine ⟨fun term hterm => ?_, fun term hterm hname => ?_, hoversized⟩
    · rw [SumText.mem_names (mem_of_mem_head? hterm)]
      by_contra hmem
      have hbad := hone term.2
      rw [if_neg hmem, if_pos (by simp [mem_def.mp hterm])] at hbad
      exact absurd hbad (by decide)
    · rw [hone term.2, if_pos ((SumText.mem_names hterm).mp hname)]
  · intro h symbols
    rw [h.oversizedCancel, zero_add]
    have hcount : ∀ name ∈ e.names, netCount e.unread name * symbols (utf8 name)
        = if e.unread.head?.map Prod.snd = some name then symbols (utf8 name) else 0 := by
      intro name hname
      obtain ⟨term, hterm, rfl⟩ := mem_map.mp (mem_toFinset.mp hname)
      obtain ⟨hterm, hnone⟩ := mem_filter.mp hterm
      rw [h.namesCancel term hterm (by simpa using hnone)]
      split <;> simp
    rw [Finset.sum_congr rfl hcount]
    cases hfirst : e.unread.head? with
    | none => simp
    | some term =>
      have hname := (SumText.mem_names (mem_of_mem_head? hfirst)).mp
        (h.firstIsName term hfirst)
      simp [hname]

/-- `1-a`: the sign in front of the symbol is lost. -/
def oneMinusA : SumText :=
  ⟨none, ⟨⟨[], by simp⟩, ⟨['1'], by decide⟩, ⟨[], by simp⟩⟩,
    [(.minus, ⟨⟨[], by simp⟩, ⟨['a'], by decide⟩, ⟨[], by simp⟩⟩)]⟩

/-- `1-a` is read as `a+1`. -/
theorem not_denotesSum_oneMinusA : oneMinusA.text = "1-a".toList ∧ ¬ DenotesSum oneMinusA := by
  refine ⟨by decide +kernel, fun h => ?_⟩
  have hone := h fun _ => 1
  exact absurd hone (by decide +kernel)

end Srs.Script.SymbolExpressions
