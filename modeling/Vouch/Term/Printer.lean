import Vouch.Term.Basic

/-!
# Terms on the Wire

The syntax the prover reads: prefix operators in upper case, one line, every
application in parentheses. Tuples have no syntax of their own. Their items
are written in place, and a map operator carries the number of indices in its
symbol instead, so `MAP_SELECT2` is a different symbol from `MAP_SELECT1`.

## Main definitions

* `Op.keyword`: The symbol of an operator.
* `Term.text`: The text of a term.
-/

namespace Vouch

/-- What the names of value variables and truth values start with. -/
def valueMark : String := "term$$"

namespace Op

/-- The symbol of an operator; tuples, variables and literals have none. -/
def keyword : Op → String
  | and => "AND"
  | or => "OR"
  | not => "NOT"
  | implies => "IMPLIES"
  | iff => "IFF"
  | all => "FORALL"
  | eq => "EQ"
  | neq => "NEQ"
  | distinct => "DISTINCT"
  | lt => "<"
  | le => "<="
  | tnand => "TNAND"
  | tlt => "T<"
  | teq => "TEQ"
  | teqInt => "TEQ_INT"
  | teqBool => "TEQ_BOOL"
  | add => "+"
  | sub => "-"
  | mul => "*"
  | div => "DIV"
  | mod => "MOD"
  | neg => "-"
  | mapSelect => "MAP_SELECT"
  | mapUpdate => "MAP_UPDATE"
  | tuple => ""
  | app function => function
  | var => ""
  | lit => ""

end Op

namespace Literal

/-- The text of a literal of the given sort. The prover has no negative
    numerals, so those are subtractions from zero. -/
def text (sort : TermSort) : Literal → String
  | name n => n
  | int (.ofNat n) => toString n
  | int (.negSucc n) => "(- 0 " ++ toString (n + 1) ++ ")"
  | bool b =>
    let word := if b then "TRUE" else "FALSE"
    if sort.isFormula then word else valueMark ++ word

end Literal

namespace Term

/-- The number of indices of a map operation with these operands: the width
    of its second operand if that is a tuple. -/
def indexArity (children : List Term) : Nat :=
  match children[1]? with
  | some t => if t.op = .tuple then t.children.length else 1
  | none => 0

/-- The texts of a list of items, separated by single spaces. -/
def spaced (items : List String) : String :=
  " ".intercalate items

/-- An application of a symbol to items. -/
def applied (symbol : String) (items : List String) : String :=
  "(" ++ spaced (symbol :: items) ++ ")"

mutual

/-- The wire text. -/
def text : Term → String
  | node _ h cs _ =>
    let items := texts cs
    match h.op with
    | .var =>
      match h.payload with
      | some (.name n) => n
      | _ => "?"
    | .lit => (h.payload.map (·.text h.sort)).getD "?"
    | .and => if cs.isEmpty then "TRUE" else applied "AND" items
    | .or => if cs.isEmpty then "FALSE" else applied "OR" items
    | .all =>
      "(FORALL (" ++ spaced items.dropLast ++ ") " ++ spaced items.getLast?.toList ++ ")"
    | .neg => "(- 0 " ++ spaced items ++ ")"
    | .tuple => spaced items
    | .mapSelect => applied ("MAP_SELECT" ++ toString (indexArity cs)) items
    | .mapUpdate => applied ("MAP_UPDATE" ++ toString (indexArity cs)) items
    | .app f => if cs.isEmpty then f else applied f items
    | op => applied op.keyword items

/-- The wire texts of a list of terms. -/
def texts : List Term → List String
  | [] => []
  | t :: ts => text t :: texts ts

end

/-- The text of a term as a value of its type, for diagnostics. -/
def describe (t : Term) : String :=
  "Term(" ++ t.text ++ ")"

end Term

end Vouch
