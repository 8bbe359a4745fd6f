/-!
# JSON Values

Objects keep their members in order and may repeat a key, because whether a repetition
matters is for the reader of the object to say. A string literal with half of a
surrogate pair stands for no text and is kept as `none`.

## Main definitions

* `Json`: A value.
* `Json.compact`: Its shortest text.
* `Json.pretty`: Its text over several lines.
-/

namespace Vouch

/-- A JSON value. -/
inductive Json where
  | null
  | bool (value : Bool)
  | int (value : Int)
  /-- A number that is not written as an integer. -/
  | real (text : String)
  | str (text : Option String)
  | arr (items : List Json)
  | obj (members : List (Option String × Json))
deriving Inhabited

namespace Json

/-- A string. -/
def text (s : String) : Json := str (some s)

/-- A list of strings. -/
def texts (ss : List String) : Json := arr (ss.map text)

/-- A natural number. -/
def nat (n : Nat) : Json := int n

/-- An object without repeated keys. -/
def record (members : List (String × Json)) : Json :=
  obj (members.map fun (k, v) => (some k, v))

/-- A value or nothing. -/
def ofOption (j : Option Json) : Json := j.getD null

/-- Digits of hexadecimal numbers. -/
def hexDigit (n : Nat) : Char :=
  if n < 10 then Char.ofNat (48 + n) else Char.ofNat (87 + n)

/-- A character inside a string literal. Quotes, backslashes and control
    characters are escaped, everything else stands for itself. -/
def escape (c : Char) : List Char :=
  if c = '"' then ['\\', '"']
  else if c = '\\' then ['\\', '\\']
  else if c.toNat = 8 then ['\\', 'b']
  else if c.toNat = 9 then ['\\', 't']
  else if c.toNat = 10 then ['\\', 'n']
  else if c.toNat = 12 then ['\\', 'f']
  else if c.toNat = 13 then ['\\', 'r']
  else if c.toNat < 32 then ['\\', 'u', '0', '0', hexDigit (c.toNat / 16), hexDigit (c.toNat % 16)]
  else [c]

/-- A string literal. -/
def quote (s : String) : String :=
  "\"" ++ String.ofList (s.toList.flatMap escape) ++ "\""

/-- The literal of a string. One without a text is written as an unpaired
    escape. -/
def literal : Option String → String
  | some s => quote s
  | none => "\"\\ud800\""

mutual

/-- The shortest text of a value. -/
def compact : Json → String
  | null => "null"
  | bool b => if b then "true" else "false"
  | int n => toString n
  | real t => t
  | str s => literal s
  | arr items => "[" ++ ",".intercalate (compactItems items) ++ "]"
  | obj members => "\x7b" ++ ",".intercalate (compactMembers members) ++ "\x7d"

/-- The texts of a list of values. -/
def compactItems : List Json → List String
  | [] => []
  | j :: js => compact j :: compactItems js

/-- The texts of the members of an object. -/
def compactMembers : List (Option String × Json) → List String
  | [] => []
  | (k, j) :: js => (literal k ++ ":" ++ compact j) :: compactMembers js

end

/-- Lines of a bracketed list, the items one level further in. -/
def bracketed (opening closing indent : String) (items : List String) : String :=
  if items.isEmpty then opening ++ closing
  else
    let inner := indent ++ "  "
    opening ++ "\n" ++ inner ++ (",\n" ++ inner).intercalate items ++ "\n" ++ indent ++ closing

mutual

/-- The text of a value over several lines, each level indented by two more
    spaces. -/
def prettyAt (indent : String) : Json → String
  | null => "null"
  | bool b => if b then "true" else "false"
  | int n => toString n
  | real t => t
  | str s => literal s
  | arr items => bracketed "[" "]" indent (prettyItems (indent ++ "  ") items)
  | obj members => bracketed "\x7b" "\x7d" indent (prettyMembers (indent ++ "  ") members)

/-- The texts of a list of values. -/
def prettyItems (indent : String) : List Json → List String
  | [] => []
  | j :: js => prettyAt indent j :: prettyItems indent js

/-- The texts of the members of an object. -/
def prettyMembers (indent : String) : List (Option String × Json) → List String
  | [] => []
  | (k, j) :: js => (literal k ++ ": " ++ prettyAt indent j) :: prettyMembers indent js

end

/-- The text of a value over several lines. -/
def pretty (j : Json) : String :=
  prettyAt "" j

end Json

end Vouch
