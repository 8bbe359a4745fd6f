import Vouch.Json.Parser
import Vouch.Lang.Program

/-!
# Programs as JSON

The form in which programs are handed over. Writing is canonical: every member is
written, in declaration order. Reading is more liberal about records and strict about
everything else.

A record may be an object or the list of its members in order.

## Main definitions

* `Json.members?`: Reads a record.
* `Json.choice?`: Reads a choice.
* `Program.toJson`: Writes a program.
* `Program.parse?`: Reads a program from a text.
-/

namespace Vouch

namespace Json

/-- Integers that fit in 64 bits. -/
def int64? : Json → Option Int64
  | int n =>
    if Int64.minValue.toInt ≤ n ∧ n ≤ Int64.maxValue.toInt then some (.ofInt n) else none
  | _ => none

/-- Strings that have a text. -/
def string? : Json → Option String
  | str s => s
  | _ => none

/-- Booleans. -/
def bool? : Json → Option Bool
  | bool b => some b
  | _ => none

/-- The items of an array, and the nesting left inside it. -/
def items? (depth : Nat) : Json → Option (Nat × List Json)
  | arr items => if depth = 0 then none else some (depth - 1, items)
  | _ => none

/-- An array of values of one kind. -/
def list? {α : Type} (read : Nat → Json → Option α) (depth : Nat) (j : Json) :
    Option (List α) := do
  let (depth, items) ← j.items? depth
  items.mapM (read depth)

/-- An array of strings. -/
def strings? (depth : Nat) (j : Json) : Option (List String) :=
  list? (fun _ => string?) depth j

/-- The content of a member, if it occurs; it must not occur twice. -/
def member? (members : List (Option String × Json)) (name : String) : Option (Option Json) :=
  match members.filter (·.1 == some name) with
  | [] => some none
  | [(_, content)] => some (some content)
  | _ => none

/-- The members of a record in the order of `names`, and the nesting left
    inside it. -/
def members? (names : List String) (depth : Nat) (j : Json) : Option (Nat × List (Option Json)) :=
  if depth = 0 then none
  else match j with
    | arr items =>
      if names.length < items.length then none
      else some (depth - 1, items.map some ++ List.replicate (names.length - items.length) none)
    | obj members =>
      if members.any (·.1.isNone) then none
      else return (depth - 1, ← names.mapM (member? members))
    | _ => none

/-- A member that may be left out. -/
def orDefault {α : Type} (default : α) (read : Json → Option α) : Option Json → Option α
  | some j => read j
  | none => some default

/-- The name of an alternative and its content with the nesting left there. -/
def choice? (depth : Nat) : Json → Option (String × Option (Nat × Json))
  | str (some name) => some (name, none)
  | obj [(some name, content)] => if depth = 0 then none else some (name, some (depth - 1, content))
  | _ => none

/-- The name of an alternative without content. -/
def plainChoice? (depth : Nat) (j : Json) : Option String := do
  match ← j.choice? depth with
  | (name, none) => return name
  | (name, some (_, .null)) => return name
  | _ => none

end Json

namespace Ty

mutual

/-- A type as JSON. -/
def toJson : Ty → Json
  | int => .text "int"
  | bool => .text "bool"
  | map indices element =>
    .record [("map", .record [("indices", .arr (toJsons indices)), ("element", toJson element)])]
  | named name => .record [("named", .text name)]

/-- A list of types as JSON. -/
def toJsons : List Ty → List Json
  | [] => []
  | t :: ts => toJson t :: toJsons ts

end

/-- A type from JSON. -/
def ofJson? : Nat → Json → Option Ty
  | depth, j => do
    match ← j.choice? depth with
    | ("int", none) | ("int", some (_, .null)) => return int
    | ("bool", none) | ("bool", some (_, .null)) => return bool
    | ("named", some (_, content)) => return named (← content.string?)
    | ("map", some (_, content)) =>
      -- Two levels for the choice and its record, one for the indices.
      match depth with
      | rest + 2 =>
        let (_, members) ← content.members? ["indices", "element"] (rest + 1)
        match members with
        | [some indices, some element] =>
          match rest with
          | inner + 1 =>
            let (_, items) ← indices.items? (inner + 1)
            return map (← items.mapM (ofJson? inner)) (← ofJson? (inner + 1) element)
          | 0 => none
        | _ => none
      | _ => none
    | _ => none

end Ty

namespace VarDecl

/-- A declaration as JSON. -/
def toJson (v : VarDecl) : Json :=
  .record [("name", .text v.name), ("ty", v.ty.toJson)]

/-- A declaration from JSON. -/
def ofJson? (depth : Nat) (j : Json) : Option VarDecl := do
  let (depth, members) ← j.members? ["name", "ty"] depth
  match members with
  | [some name, some ty] => return { name := ← name.string?, ty := ← Ty.ofJson? depth ty }
  | _ => none

end VarDecl

namespace UnOp

/-- The name of an operator in JSON. -/
def code : UnOp → String
  | neg => "neg"
  | not => "not"

/-- Every operator. -/
def values : List UnOp := [neg, not]

/-- An operator from JSON. -/
def ofJson? (depth : Nat) (j : Json) : Option UnOp := do
  let name ← j.plainChoice? depth
  values.find? (·.code == name)

end UnOp

namespace BinOp

/-- The name of an operator in JSON. -/
def code : BinOp → String
  | add => "add"
  | sub => "sub"
  | mul => "mul"
  | div => "div"
  | mod => "mod"
  | eq => "eq"
  | neq => "neq"
  | lt => "lt"
  | le => "le"
  | gt => "gt"
  | ge => "ge"
  | and => "and"
  | or => "or"
  | implies => "implies"
  | iff => "iff"

/-- Every operator. -/
def values : List BinOp :=
  [add, sub, mul, div, mod, eq, neq, lt, le, gt, ge, and, or, implies, iff]

/-- An operator from JSON. -/
def ofJson? (depth : Nat) (j : Json) : Option BinOp := do
  let name ← j.plainChoice? depth
  values.find? (·.code == name)

end BinOp

namespace Expr

mutual

/-- An expression as JSON. -/
def toJson : Expr → Json
  | bool b => .record [("bool", .bool b)]
  | int n => .record [("int", .int n.toInt)]
  | var name => .record [("var", .text name)]
  | unary op e => .record [("unary", .arr [.text op.code, toJson e])]
  | binary op l r => .record [("binary", .arr [.text op.code, toJson l, toJson r])]
  | app f args => .record [("app", .arr [.text f, .arr (toJsons args)])]
  | select m idx => .record [("select", .arr [toJson m, .arr (toJsons idx)])]
  | update m idx v => .record [("update", .arr [toJson m, .arr (toJsons idx), toJson v])]
  | all vars body =>
    .record [("forall", .arr [.arr (vars.map VarDecl.toJson), toJson body])]

/-- A list of expressions as JSON. -/
def toJsons : List Expr → List Json
  | [] => []
  | e :: es => toJson e :: toJsons es

end

/-- An expression from JSON. The parts of an expression are at least two
    levels further in than the expression itself. -/
def ofJson? : Nat → Json → Option Expr
  | 0, _ => none
  | 1, j => do
    match ← j.choice? 1 with
    | ("bool", some (_, content)) => return bool (← content.bool?)
    | ("int", some (_, content)) => return int (← content.int64?)
    | ("var", some (_, content)) => return var (← content.string?)
    | _ => none
  | depth + 2, j => do
    match ← j.choice? (depth + 2) with
    | ("bool", some (_, content)) => return bool (← content.bool?)
    | ("int", some (_, content)) => return int (← content.int64?)
    | ("var", some (_, content)) => return var (← content.string?)
    | ("unary", some (_, .arr [op, e])) =>
      return unary (← UnOp.ofJson? depth op) (← ofJson? depth e)
    | ("binary", some (_, .arr [op, l, r])) =>
      return binary (← BinOp.ofJson? depth op) (← ofJson? depth l) (← ofJson? depth r)
    | ("app", some (_, .arr [f, args])) =>
      return app (← f.string?) (← parts? depth args)
    | ("select", some (_, .arr [m, idx])) =>
      return select (← ofJson? depth m) (← parts? depth idx)
    | ("update", some (_, .arr [m, idx, v])) =>
      return update (← ofJson? depth m) (← parts? depth idx) (← ofJson? depth v)
    | ("forall", some (_, .arr [vars, body])) =>
      return all (← Json.list? VarDecl.ofJson? depth vars) (← ofJson? depth body)
    | _ => none
where
  /-- A list of expressions. -/
  parts? : Nat → Json → Option (List Expr)
    | depth + 1, .arr items => items.mapM (ofJson? depth)
    | _, _ => none

end Expr

namespace Call

/-- A call as JSON. -/
def toJson (c : Call) : Json :=
  .record [("callee", .text c.callee), ("results", .texts c.results),
    ("args", .arr (Expr.toJsons c.args))]

/-- A call from JSON. -/
def ofJson? (depth : Nat) (j : Json) : Option Call := do
  let (depth, members) ← j.members? ["callee", "results", "args"] depth
  match members with
  | [some callee, results, args] =>
    return {
      callee := ← callee.string?
      results := ← Json.orDefault [] (Json.strings? depth) results
      args := ← Json.orDefault [] (Json.list? Expr.ofJson? depth) args }
  | _ => none

end Call

namespace Action

/-- An action as JSON. -/
def toJson : Action → Json
  | assert e => .record [("assert", e.toJson)]
  | assume e => .record [("assume", e.toJson)]
  | assign pairs => .record [("assign", .arr (pairs.map fun (v, e) => .arr [.text v, e.toJson]))]
  | havoc vars => .record [("havoc", .texts vars)]
  | call site => .record [("call", site.toJson)]
  | goto targets => .record [("goto", .texts targets)]
  | skip => .text "no_op"

/-- A variable and the expression assigned to it, from JSON. -/
def pair? (depth : Nat) (j : Json) : Option (String × Expr) := do
  match ← j.items? depth with
  | (depth, [v, e]) => return (← v.string?, ← Expr.ofJson? depth e)
  | _ => none

/-- An action from JSON. -/
def ofJson? (depth : Nat) (j : Json) : Option Action := do
  match ← j.choice? depth with
  | ("assert", some (depth, e)) => return assert (← Expr.ofJson? depth e)
  | ("assume", some (depth, e)) => return assume (← Expr.ofJson? depth e)
  | ("assign", some (depth, pairs)) => return assign (← Json.list? pair? depth pairs)
  | ("havoc", some (depth, vars)) => return havoc (← Json.strings? depth vars)
  | ("call", some (depth, site)) => return call (← Call.ofJson? depth site)
  | ("goto", some (depth, targets)) => return goto (← Json.strings? depth targets)
  | ("no_op", none) | ("no_op", some (_, .null)) => return skip
  | _ => none

end Action

namespace Command

/-- A command as JSON. -/
def toJson (c : Command) : Json :=
  .record [("labels", .texts c.labels), ("kind", c.action.toJson)]

/-- A command from JSON. -/
def ofJson? (depth : Nat) (j : Json) : Option Command := do
  let (depth, members) ← j.members? ["labels", "kind"] depth
  match members with
  | [labels, some action] =>
    return {
      labels := ← Json.orDefault [] (Json.strings? depth) labels
      action := ← Action.ofJson? depth action }
  | _ => none

end Command

namespace Body

/-- A body as JSON. -/
def toJson (b : Body) : Json :=
  .arr (b.map Command.toJson)

/-- A body from JSON. -/
def ofJson? (depth : Nat) (j : Json) : Option Body :=
  Json.list? Command.ofJson? depth j

end Body

namespace FunctionDecl

/-- A declaration as JSON. -/
def toJson (f : FunctionDecl) : Json :=
  .record [("name", .text f.name), ("args", .arr (Ty.toJsons f.args)), ("result", f.result.toJson)]

/-- A declaration from JSON. -/
def ofJson? (depth : Nat) (j : Json) : Option FunctionDecl := do
  let (depth, members) ← j.members? ["name", "args", "result"] depth
  match members with
  | [some name, args, some result] =>
    return {
      name := ← name.string?
      args := ← Json.orDefault [] (Json.list? Ty.ofJson? depth) args
      result := ← Ty.ofJson? depth result }
  | _ => none

end FunctionDecl

/-- Declarations as JSON. -/
def varsToJson (vars : List VarDecl) : Json :=
  .arr (vars.map VarDecl.toJson)

namespace Procedure

/-- A signature as JSON. -/
def toJson (p : Procedure) : Json :=
  .record [("name", .text p.name), ("args", varsToJson p.args), ("results", varsToJson p.results),
    ("requires", .arr (Expr.toJsons p.requires)), ("modifies", .arr (p.modifies.map Json.texts)),
    ("ensures", .arr (Expr.toJsons p.ensures))]

/-- A signature from JSON. -/
def ofJson? (depth : Nat) (j : Json) : Option Procedure := do
  let names := ["name", "args", "results", "requires", "modifies", "ensures"]
  let (depth, members) ← j.members? names depth
  match members with
  | [some name, args, results, requires, modifies, ensures] =>
    let vars := Json.orDefault [] (Json.list? VarDecl.ofJson? depth)
    let exprs := Json.orDefault [] (Json.list? Expr.ofJson? depth)
    return {
      name := ← name.string?
      args := ← vars args
      results := ← vars results
      requires := ← exprs requires
      modifies := ← Json.orDefault [] (Json.list? Json.strings? depth) modifies
      ensures := ← exprs ensures }
  | _ => none

end Procedure

namespace Routine

/-- A routine as JSON. -/
def toJson (r : Routine) : Json :=
  .record [("name", .text r.name), ("args", varsToJson r.args), ("results", varsToJson r.results),
    ("locals", varsToJson r.locals), ("body", Body.toJson r.body),
    ("location", .ofOption (r.location.map Json.text))]

/-- A location, which may be absent. -/
def location? : Json → Option (Option String)
  | .null => some none
  | j => some <$> j.string?

/-- A routine from JSON. -/
def ofJson? (depth : Nat) (j : Json) : Option Routine := do
  let names := ["name", "args", "results", "locals", "body", "location"]
  let (depth, members) ← j.members? names depth
  match members with
  | [some name, args, results, locals, some body, location] =>
    let vars := Json.orDefault [] (Json.list? VarDecl.ofJson? depth)
    return {
      name := ← name.string?
      args := ← vars args
      results := ← vars results
      locals := ← vars locals
      body := ← Body.ofJson? depth body
      location := ← Json.orDefault none location? location }
  | _ => none

end Routine

namespace Program

/-- A program as JSON. -/
def toJson (p : Program) : Json :=
  .record [("globals", varsToJson p.globals),
    ("functions", .arr (p.functions.map FunctionDecl.toJson)),
    ("axioms", .arr (Expr.toJsons p.axioms)),
    ("procedures", .arr (p.procedures.map Procedure.toJson)),
    ("routines", .arr (p.routines.map Routine.toJson))]

/-- A program from JSON. -/
def ofJson? (depth : Nat) (j : Json) : Option Program := do
  let names := ["globals", "functions", "axioms", "procedures", "routines"]
  let (depth, members) ← j.members? names depth
  match members with
  | [globals, functions, axioms, procedures, routines] =>
    return {
      globals := ← Json.orDefault [] (Json.list? VarDecl.ofJson? depth) globals
      functions := ← Json.orDefault [] (Json.list? FunctionDecl.ofJson? depth) functions
      axioms := ← Json.orDefault [] (Json.list? Expr.ofJson? depth) axioms
      procedures := ← Json.orDefault [] (Json.list? Procedure.ofJson? depth) procedures
      routines := ← Json.orDefault [] (Json.list? Routine.ofJson? depth) routines }
  | _ => none

/-- How deep arrays and objects may nest in the text of a program. -/
def maxNesting : Nat := 127

/-- The program of a text. -/
def parse? (text : String) : Option Program := do
  ofJson? maxNesting (← Json.parse? text)

end Program

end Vouch
