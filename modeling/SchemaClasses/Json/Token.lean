import SchemaClasses.Number.Numeral

/-!
# Tokens of JSON text

Text is cut into brackets, marks, words, numerals and strings, with blanks between them. A string is
kept as its glyphs, characters as they are written and 16-bit units written as four hexadecimal
digits, because whether its units pair up is only asked of the strings that are used.
-/

namespace SchemaClasses.Json

/-- One element of a written string. -/
inductive Glyph where
  | char (c : Char)
  | unit (code : Nat)
  deriving DecidableEq, Repr

inductive Token where
  | openArray
  | closeArray
  | openObject
  | closeObject
  | comma
  | colon
  | null
  | bool (value : Bool)
  | num (value : Numeral)
  | str (glyphs : List Glyph)
  deriving DecidableEq, Repr

namespace Token

def isGap (c : Char) : Bool := c = ' ' || c = '\n' || c = '\t' || c = '\r'

/-- The value of a hexadecimal digit. -/
def hexValue? (c : Char) : Option Nat :=
  if '0' ≤ c ∧ c ≤ '9' then some (c.toNat - 48)
  else if 'a' ≤ c ∧ c ≤ 'f' then some (c.toNat - 87)
  else if 'A' ≤ c ∧ c ≤ 'F' then some (c.toNat - 55)
  else none

/-- The 16-bit unit of four hexadecimal digits. -/
def unit? (a b c d : Char) : Option Glyph := do
  let a ← hexValue? a
  let b ← hexValue? b
  let c ← hexValue? c
  let d ← hexValue? d
  return .unit (a * 4096 + b * 256 + c * 16 + d)

/-- The character that a backslash and one letter stand for. -/
def escaped? : Char → Option Char
  | '"' => some '"'
  | '\\' => some '\\'
  | '/' => some '/'
  | 'b' => some '\x08'
  | 'f' => some '\x0c'
  | 'n' => some '\n'
  | 'r' => some '\r'
  | 't' => some '\t'
  | _ => none

/-- The glyphs up to the closing quote, and the text after it. -/
def scanString : List Char → Option (List Glyph × List Char)
  | [] => none
  | '"' :: rest => some ([], rest)
  | '\\' :: 'u' :: a :: b :: c :: d :: rest => do
    let glyph ← unit? a b c d
    let (glyphs, after) ← scanString rest
    return (glyph :: glyphs, after)
  | '\\' :: e :: rest => do
    let c ← escaped? e
    let (glyphs, after) ← scanString rest
    return (.char c :: glyphs, after)
  | c :: rest =>
    if c.toNat < 0x20 then none
    else do
      let (glyphs, after) ← scanString rest
      return (.char c :: glyphs, after)

def scanDigits (cs : List Char) : List Nat × List Char :=
  ((cs.takeWhile Char.isDigit).map fun c => c.toNat - 48, cs.dropWhile Char.isDigit)

/-- The digits after a point, of which there must be one; no digits without a point. -/
def scanFraction? : List Char → Option (List Nat × List Char)
  | '.' :: rest =>
    let (digits, after) := scanDigits rest
    if digits.isEmpty then none else some (digits, after)
  | rest => some ([], rest)

/-- The exponent that makes up the rest of a numeral. -/
def readExponent? : List Char → Option (Option (Bool × List Nat))
  | [] => some none
  | e :: rest =>
    if e = 'e' ∨ e = 'E' then
      let (negative, rest) :=
        match rest with
        | '-' :: rest => (true, rest)
        | '+' :: rest => (false, rest)
        | rest => (false, rest)
      let (digits, after) := scanDigits rest
      if digits.isEmpty || !after.isEmpty then none else some (some (negative, digits))
    else none

/-- A text that is a numeral as a whole: no sign but a minus, no further digit after a leading
zero, and digits on either side of a point. -/
def readNumeral? (cs : List Char) : Option Numeral := do
  let (negative, cs) :=
    match cs with
    | '-' :: rest => (true, rest)
    | cs => (false, cs)
  let (whole, rest) := scanDigits cs
  if whole.isEmpty || (whole.head? = some 0 && whole.length ≠ 1) then none
  else
    let (fraction, rest) ← scanFraction? rest
    let exponent ← readExponent? rest
    return ⟨negative, whole, fraction, exponent⟩

def isNumeralChar (c : Char) : Bool :=
  c.isDigit || c = '-' || c = '+' || c = '.' || c = 'e' || c = 'E'

/-- The token for a bracket or a mark. -/
def mark? : Char → Option Token
  | '[' => some .openArray
  | ']' => some .closeArray
  | '{' => some .openObject
  | '}' => some .closeObject
  | ',' => some .comma
  | ':' => some .colon
  | _ => none

def word? (letters : List Char) : Option Token :=
  if letters = "null".toList then some .null
  else if letters = "true".toList then some (.bool true)
  else if letters = "false".toList then some (.bool false)
  else none

/-- The token at the start of a text that starts with no gap, and the text after it. -/
def scanOne : List Char → Option (Token × List Char)
  | [] => none
  | c :: rest =>
    match mark? c with
    | some token => some (token, rest)
    | none =>
      if c = '"' then do
        let (glyphs, after) ← scanString rest
        return (.str glyphs, after)
      else if c = '-' || c.isDigit then do
        let cs := c :: rest
        let numeral ← readNumeral? (cs.takeWhile isNumeralChar)
        return (.num numeral, cs.dropWhile isNumeralChar)
      else do
        let cs := c :: rest
        let token ← word? (cs.takeWhile Char.isAlpha)
        return (token, cs.dropWhile Char.isAlpha)

/-- The tokens of a text, at most `limit` of them. -/
def scanUpTo : Nat → List Char → Option (List Token)
  | limit, cs =>
    match cs.dropWhile isGap, limit with
    | [], _ => some []
    | _ :: _, 0 => none
    | c :: rest, limit + 1 => do
      let (token, after) ← scanOne (c :: rest)
      let tokens ← scanUpTo limit after
      return token :: tokens

def scan (text : String) : Option (List Token) :=
  let cs := text.toList
  scanUpTo cs.length cs

end Token

end SchemaClasses.Json
