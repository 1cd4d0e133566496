import BitvectorCode.Code.Basic
import BitvectorCode.Saved.Layout

/-!
# Saved code

The saved forms of variables and typed code.
-/

namespace BitvectorCode

namespace Variable

def toJson (v : Variable) : Json := .obj [("name", .str v.name), ("type_", v.type.toJson)]

def ofJson? (j : Json) : Option Variable := do
  match ← j.fields? ["name", "type_"] with
  | [some name, some type] => return ⟨← name.str?, ← Ty.ofJson? type⟩
  | _ => none

end Variable

namespace CodeOp

def name : CodeOp → String
  | and => "And"
  | or => "Or"
  | xor => "Xor"
  | add => "Add"
  | sub => "Sub"
  | mul => "Mul"
  | div => "Div"
  | mod => "Mod"
  | shl => "Shl"
  | shr => "Shr"
  | equals => "Equals"
  | notEquals => "NotEquals"
  | less => "Less"
  | lessEq => "LessEq"
  | greater => "Greater"
  | greaterEq => "GreaterEq"

def all : List CodeOp :=
  [and, or, xor, add, sub, mul, div, mod, shl, shr,
    equals, notEquals, less, lessEq, greater, greaterEq]

def ofName? (text : String) : Option CodeOp := all.find? (·.name == text)

end CodeOp

namespace Code

def toJson : Code → Json
  | constant type values =>
    .tagged "Constant" (.obj [("type_", type.toJson), ("values", .arr (values.map .ofNat))])
  | var v => .tagged "Variable" v.toJson
  | read v type index =>
    .tagged "Read"
      (.obj [("variable", v.toJson), ("type_", type.toJson), ("index", index.toJson)])
  | concat left right type =>
    .tagged "Concat"
      (.obj [("left", left.toJson), ("right", right.toJson), ("type_", type.toJson)])
  | select cond ifTrue ifFalse type =>
    .tagged "Select"
      (.obj [("cond", cond.toJson), ("then", ifTrue.toJson), ("else_", ifFalse.toJson),
        ("type_", type.toJson)])
  | cast inner type => .tagged "Cast" (.obj [("expr", inner.toJson), ("type_", type.toJson)])
  | not inner type =>
    .tagged "Unary"
      (.obj [("op", .str "Not"), ("expr", inner.toJson), ("type_", type.toJson)])
  | binary op lhs rhs type =>
    .tagged "Binary"
      (.obj [("op", .str op.name), ("lhs", lhs.toJson), ("rhs", rhs.toJson),
        ("type_", type.toJson)])

def ofJsonWithin : (depth : Nat) → Json → Option Code
  | 0, _ => none
  | depth + 1, j => do
    let inner? := ofJsonWithin depth
    match ← j.tag? with
    | ("Constant", content) =>
      match ← content.namedFields? ["type_", "values"] with
      | [some type, some values] => return constant (← Ty.ofJson? type) (← values.list? Json.nat?)
      | _ => none
    | ("Variable", content) => return var (← Variable.ofJson? content)
    | ("Read", content) =>
      match ← content.namedFields? ["variable", "type_", "index"] with
      | [some v, some type, some index] =>
        return read (← Variable.ofJson? v) (← Ty.ofJson? type) (← inner? index)
      | _ => none
    | ("Concat", content) =>
      match ← content.namedFields? ["left", "right", "type_"] with
      | [some left, some right, some type] =>
        return concat (← inner? left) (← inner? right) (← Ty.ofJson? type)
      | _ => none
    | ("Select", content) =>
      match ← content.namedFields? ["cond", "then", "else_", "type_"] with
      | [some cond, some ifTrue, some ifFalse, some type] =>
        return select (← inner? cond) (← inner? ifTrue) (← inner? ifFalse) (← Ty.ofJson? type)
      | _ => none
    | ("Cast", content) =>
      match ← content.namedFields? ["expr", "type_"] with
      | [some inner, some type] => return cast (← inner? inner) (← Ty.ofJson? type)
      | _ => none
    | ("Unary", content) =>
      match ← content.namedFields? ["op", "expr", "type_"] with
      | [some op, some inner, some type] =>
        if (← op.name?) = "Not" then return not (← inner? inner) (← Ty.ofJson? type) else none
      | _ => none
    | ("Binary", content) =>
      match ← content.namedFields? ["op", "lhs", "rhs", "type_"] with
      | [some op, some lhs, some rhs, some type] =>
        let op ← CodeOp.ofName? (← op.name?)
        return binary op (← inner? lhs) (← inner? rhs) (← Ty.ofJson? type)
      | _ => none
    | _ => none

def ofJson? (j : Json) : Option Code := ofJsonWithin j.depth j

end Code

end BitvectorCode
