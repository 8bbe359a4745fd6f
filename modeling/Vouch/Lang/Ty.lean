/-!
# Types

## Main definitions

* `Ty`: Integers, booleans, maps from some indices to an element, and types known
  only by name.
* `VarDecl`: A variable with its type.
-/

namespace Vouch

/-- Types of variables and expressions. -/
inductive Ty where
  | int
  | bool
  | map (indices : List Ty) (element : Ty)
  | named (name : String)
deriving BEq, Inhabited

namespace Ty

mutual

/-- The text of a type; the indices of a map stand in brackets before its
    element type. -/
def text : Ty → String
  | int => "int"
  | bool => "bool"
  | map indices element => "[" ++ ", ".intercalate (texts indices) ++ "]" ++ text element
  | named name => name

/-- The texts of a list of types. -/
def texts : List Ty → List String
  | [] => []
  | t :: ts => text t :: texts ts

end

/-- Whether this is the type of booleans. -/
def isBool : Ty → Bool
  | bool => true
  | _ => false

end Ty

/-- A variable with its type. -/
structure VarDecl where
  name : String
  ty : Ty
deriving BEq, Inhabited

namespace VarDecl

/-- The text of a declaration. -/
def text (v : VarDecl) : String :=
  v.name ++ ": " ++ v.ty.text

end VarDecl

end Vouch
