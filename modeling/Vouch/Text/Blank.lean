/-!
# Blank Characters

White space in the sense of Unicode, which is more than the blanks of ASCII:
settings and prover output are trimmed and split at all of it.

## Main definitions

* `Text.trim`: A text without the blanks at both ends.
* `Text.lines`: The parts of a text between line breaks.
-/

namespace Vouch

namespace Text

/-- The characters with the property White_Space. -/
def isBlank (c : Char) : Bool :=
  let n := c.toNat
  (9 ≤ n && n ≤ 13) || n == 0x20 || n == 0x85 || n == 0xA0 || n == 0x1680
    || (0x2000 ≤ n && n ≤ 0x200A) || n == 0x2028 || n == 0x2029 || n == 0x202F
    || n == 0x205F || n == 0x3000

/-- Characters without the blanks at both ends. -/
def trimChars (cs : List Char) : List Char :=
  ((cs.dropWhile isBlank).reverse.dropWhile isBlank).reverse

/-- A text without the blanks at both ends. -/
def trim (s : String) : String :=
  String.ofList (trimChars s.toList)

/-- The parts of a text between blanks, `current` being the end of the part
    being read, last character first. -/
def wordsFrom (current : List Char) : List Char → List (List Char)
  | [] => if current.isEmpty then [] else [current.reverse]
  | c :: cs =>
    if isBlank c then
      if current.isEmpty then wordsFrom [] cs else current.reverse :: wordsFrom [] cs
    else wordsFrom (c :: current) cs

/-- The parts of a text between blanks. -/
def words (s : String) : List String :=
  (wordsFrom [] s.toList).map String.ofList

/-- The parts of a text between line breaks. -/
def lines (s : String) : List String :=
  (s.toList.splitOn '\n').map String.ofList

/-- Capital letters of ASCII in lower case. -/
def asciiLower (s : String) : String :=
  s.map Char.toLower

end Text

end Vouch
