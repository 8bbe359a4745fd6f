/-!
# Path Names

Repeated slashes and dots in the middle add nothing; the root, a dot at the start and
double dots are parts of their own.

## Main definitions

* `PathName.parts`: The parts of a path name between slashes.
* `PathName.stem?`: The last part without its extension.
-/

namespace Vouch

namespace PathName

/-- The pieces of a list between slashes, `current` being the end of the piece
    being read, last character first. -/
def piecesFrom (current : List Char) : List Char → List String
  | [] => [String.ofList current.reverse]
  | '/' :: cs => String.ofList current.reverse :: piecesFrom [] cs
  | c :: cs => piecesFrom (c :: current) cs

/-- The parts of a path name: the root, a dot at the start, and every piece
    that is neither empty nor a dot. -/
def parts (path : String) : List String :=
  let pieces := piecesFrom [] path.toList
  let named := pieces.filter fun p => p != "" && p != "."
  match pieces with
  | "" :: _ :: _ => "/" :: named
  | "." :: _ => "." :: named
  | _ => named

/-- A name up to its last dot. A dot that starts the name divides nothing. -/
def withoutExtension (name : String) : String :=
  match name.toList.reverse.dropWhile (· != '.') with
  | [] => name
  | [_] => name
  | _ :: before => String.ofList before.reverse

/-- The last part without its extension, if that part is a name. -/
def stem? (path : String) : Option String := do
  let last ← (parts path).getLast?
  if last == "/" || last == "." || last == ".." then none
  else return withoutExtension last

end PathName

end Vouch
