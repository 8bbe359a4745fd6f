import Vouch.Json.Token

/-!
# Reading JSON

A text is a single value and nothing else. There is no limit on how deep
arrays and objects nest here; readers that have one count for themselves.

## Main definitions

* `Json.readValue`: A value at the beginning of some words.
* `Json.parse?`: The value of a text.
-/

namespace Vouch

namespace Json

mutual

/-- A value at the beginning of the words, and the words after it. -/
def readValue : Nat → List Token → Option (Json × List Token)
  | 0, _ => none
  | _ + 1, .scalar value :: rest => some (value, rest)
  | _ + 1, .openBracket :: .closeBracket :: rest => some (arr [], rest)
  | fuel + 1, .openBracket :: rest => do
    let (items, rest) ← readItems fuel rest
    return (arr items, rest)
  | _ + 1, .openBrace :: .closeBrace :: rest => some (obj [], rest)
  | fuel + 1, .openBrace :: rest => do
    let (members, rest) ← readMembers fuel rest
    return (obj members, rest)
  | _ + 1, _ => none

/-- One or more values separated by commas, up to the closing bracket. -/
def readItems : Nat → List Token → Option (List Json × List Token)
  | 0, _ => none
  | fuel + 1, tokens => do
    let (item, rest) ← readValue fuel tokens
    match rest with
    | .closeBracket :: rest => return ([item], rest)
    | .comma :: rest => do
      let (items, rest) ← readItems fuel rest
      return (item :: items, rest)
    | _ => none

/-- One or more members separated by commas, up to the closing brace. -/
def readMembers : Nat → List Token → Option (List (Option String × Json) × List Token)
  | fuel + 1, .scalar (.str key) :: .colon :: rest => do
    let (value, rest) ← readValue fuel rest
    match rest with
    | .closeBrace :: rest => return ([(key, value)], rest)
    | .comma :: rest => do
      let (members, rest) ← readMembers fuel rest
      return ((key, value) :: members, rest)
    | _ => none
  | _, _ => none

end

/-- The value that all the words together make. Reading a value or a list of
    them costs one unit each, and there are at most as many of either as there
    are words. -/
def ofTokens (tokens : List Token) : Option Json :=
  match readValue (2 * tokens.length + 2) tokens with
  | some (value, []) => some value
  | _ => none

/-- The value of a text. -/
def parse? (text : String) : Option Json :=
  Token.lex text.toList >>= ofTokens

end Json

end Vouch
