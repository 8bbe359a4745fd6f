import Vouch.Json.Basic

/-!
# JSON Tokens

The words of a JSON text. White space between them is dropped; anything that is neither
white space nor the beginning of a word makes the text malformed.

## Main definitions

* `Json.Token`: A word.
* `Json.Token.lex`: The words of a text.
-/

namespace Vouch

namespace Json

/-- A word of a JSON text. -/
inductive Token where
  | openBrace
  | closeBrace
  | openBracket
  | closeBracket
  | colon
  | comma
  /-- A literal that is a value by itself. -/
  | scalar (value : Json)
deriving Inhabited

namespace Token

/-- White space between words. -/
def isSpace (c : Char) : Bool :=
  c = ' ' || c = '\t' || c = '\n' || c = '\r'

/-- Decimal digits. -/
def isDigit (c : Char) : Bool :=
  '0' ≤ c && c ≤ '9'

/-- The number of a decimal digit. -/
def digitValue (c : Char) : Nat :=
  c.toNat - 48

/-- The number written by decimal digits. -/
def digitsValue (cs : List Char) : Nat :=
  cs.foldl (fun n c => 10 * n + digitValue c) 0

/-- The number of a hexadecimal digit. -/
def hexValue (c : Char) : Option Nat :=
  if isDigit c then some (c.toNat - 48)
  else if 'a' ≤ c && c ≤ 'f' then some (c.toNat - 87)
  else if 'A' ≤ c && c ≤ 'F' then some (c.toNat - 55)
  else none

/-- The number of four hexadecimal digits. -/
def hexUnit (a b c d : Char) : Option Nat := do
  return (((← hexValue a) * 16 + (← hexValue b)) * 16 + (← hexValue c)) * 16 + (← hexValue d)

/-- What a backslash and one more character stand for. -/
def simpleEscape (c : Char) : Option Nat :=
  match c with
  | '"' => some 34
  | '\\' => some 92
  | '/' => some 47
  | 'b' => some 8
  | 'f' => some 12
  | 'n' => some 10
  | 'r' => some 13
  | 't' => some 9
  | _ => none

/-- The code points and surrogate halves of a string literal, up to its closing
    quote, and what follows it. -/
def readUnits : List Char → Option (List Nat × List Char)
  | [] => none
  | '"' :: rest => some ([], rest)
  | '\\' :: 'u' :: a :: b :: c :: d :: rest => do
    let unit ← hexUnit a b c d
    let (units, rest) ← readUnits rest
    return (unit :: units, rest)
  | '\\' :: c :: rest => do
    let unit ← simpleEscape c
    let (units, rest) ← readUnits rest
    return (unit :: units, rest)
  | c :: rest =>
    if c.toNat < 32 then none
    else do
      let (units, rest) ← readUnits rest
      return (c.toNat :: units, rest)

/-- The first halves of surrogate pairs. -/
def isHigh (unit : Nat) : Bool :=
  0xD800 ≤ unit && unit ≤ 0xDBFF

/-- The second halves of surrogate pairs. -/
def isLow (unit : Nat) : Bool :=
  0xDC00 ≤ unit && unit ≤ 0xDFFF

/-- The characters of code points and surrogate pairs. A half without its
    other half has none. -/
def charsOfUnits : List Nat → Option (List Char)
  | [] => some []
  | [unit] => if isHigh unit || isLow unit then none else some [Char.ofNat unit]
  | high :: low :: rest =>
    if isHigh high && isLow low then
      (Char.ofNat (0x10000 + (high - 0xD800) * 0x400 + (low - 0xDC00)) :: ·) <$> charsOfUnits rest
    else if isHigh high || isLow high then none
    else (Char.ofNat high :: ·) <$> charsOfUnits (low :: rest)

/-- The text of a string literal, if it has one. -/
def textOfUnits (units : List Nat) : Option String :=
  String.ofList <$> charsOfUnits units

/-- A run of characters of a number and what follows it. -/
abbrev Run := List Char × List Char

/-- One or more digits. -/
def readDigits (cs : List Char) : Option Run :=
  let digits := cs.takeWhile isDigit
  if digits.isEmpty then none else some (digits, cs.dropWhile isDigit)

/-- The fraction of a number, which may be missing. -/
def readFraction : List Char → Option Run
  | '.' :: rest => (fun (digits, rest) => ('.' :: digits, rest)) <$> readDigits rest
  | cs => some ([], cs)

/-- The sign of an exponent, which may be missing. -/
def readSign : List Char → Run
  | '+' :: rest => (['+'], rest)
  | '-' :: rest => (['-'], rest)
  | cs => ([], cs)

/-- The exponent of a number, which may be missing. -/
def readExponent : List Char → Option Run
  | c :: rest =>
    if c = 'e' || c = 'E' then do
      let (sign, rest) := readSign rest
      let (digits, rest) ← readDigits rest
      return (c :: sign ++ digits, rest)
    else some ([], c :: rest)
  | [] => some ([], [])

/-- A number and what follows it. Only numbers written without fraction and
    exponent are integers, and negative zero is not one. -/
def readNumber (cs : List Char) : Option (Json × List Char) := do
  let (negative, unsigned) := match cs with
    | '-' :: rest => (true, rest)
    | _ => (false, cs)
  let (digits, rest) ← readDigits unsigned
  if 1 < digits.length && digits.head? == some '0' then none
  let (fraction, rest) ← readFraction rest
  let (exponent, rest) ← readExponent rest
  let magnitude := digitsValue digits
  if fraction.isEmpty && exponent.isEmpty && !(negative && magnitude == 0) then
    return (.int (if negative then -(magnitude : Int) else magnitude), rest)
  else
    let sign := if negative then ['-'] else []
    return (.real (String.ofList (sign ++ digits ++ fraction ++ exponent)), rest)

/-- The words of a text, reading at most `fuel` characters and words. -/
def lexWithin : Nat → List Char → Option (List Token)
  | 0, _ => none
  | _ + 1, [] => some []
  | fuel + 1, '\x7b' :: rest => (openBrace :: ·) <$> lexWithin fuel rest
  | fuel + 1, '\x7d' :: rest => (closeBrace :: ·) <$> lexWithin fuel rest
  | fuel + 1, '[' :: rest => (openBracket :: ·) <$> lexWithin fuel rest
  | fuel + 1, ']' :: rest => (closeBracket :: ·) <$> lexWithin fuel rest
  | fuel + 1, ':' :: rest => (colon :: ·) <$> lexWithin fuel rest
  | fuel + 1, ',' :: rest => (comma :: ·) <$> lexWithin fuel rest
  | fuel + 1, 'n' :: 'u' :: 'l' :: 'l' :: rest => (scalar .null :: ·) <$> lexWithin fuel rest
  | fuel + 1, 't' :: 'r' :: 'u' :: 'e' :: rest => (scalar (.bool true) :: ·) <$> lexWithin fuel rest
  | fuel + 1, 'f' :: 'a' :: 'l' :: 's' :: 'e' :: rest =>
    (scalar (.bool false) :: ·) <$> lexWithin fuel rest
  | fuel + 1, '"' :: rest => do
    let (units, rest) ← readUnits rest
    (scalar (.str (textOfUnits units)) :: ·) <$> lexWithin fuel rest
  | fuel + 1, c :: rest =>
    if isSpace c then lexWithin fuel rest
    else do
      let (number, rest) ← readNumber (c :: rest)
      (scalar number :: ·) <$> lexWithin fuel rest

/-- The words of a text. Every word takes a character, so there are never more
    words than characters. -/
def lex (cs : List Char) : Option (List Token) :=
  lexWithin (cs.length + 1) cs

end Token

end Json

end Vouch
