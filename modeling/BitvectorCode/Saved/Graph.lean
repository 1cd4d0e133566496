import BitvectorCode.Graph.Basic
import BitvectorCode.Saved.Json

/-!
# Saved graphs

The saved forms of constants, nodes and whole graphs. The value of a constant is the list of its
digits to the base `2 ^ 32`, least significant first. A graph that is read back is not checked: its
constants may be too large for their widths and its nodes may have any width.
-/

namespace BitvectorCode

namespace Json

/-- The digits of a number to the base `2 ^ 32`, least significant first, without leading zeros. -/
def limbs (n : Nat) : List Nat := if n = 0 then [] else (digits UInt32.size n).reverse

/-- The number of base `2 ^ 32` digits, least significant first. -/
def ofLimbs (digits : List Nat) : Nat := digits.foldr
    (fun digit high => digit + UInt32.size * high) 0

end Json

namespace Constant

def toJson (c : Constant) : Json :=
  .obj [("value", .arr ((Json.limbs c.value).map .ofNat)), ("bits", .ofNat c.bits)]

def ofJson? (j : Json) : Option Constant := do
  match ← j.fields? ["value", "bits"] with
  | [some value, some bits] =>
    let digits ← value.list? (Json.natBelow? UInt32.size)
    return ⟨Json.ofLimbs digits, ← bits.nat?⟩
  | _ => none

end Constant

namespace Root

def toJson (root : Root) : Json :=
  let contents := match root.contents with
    | some bytes => .arr (bytes.map fun byte => .ofNat byte.toNat)
    | none => .null
  .obj [("name", .str root.name), ("size", .ofNat root.size), ("constant_values", contents)]

def contentsOfJson? : Json → Option (Option (List UInt8))
  | .null => some none
  | j => (j.list? (Json.natBelow? 256)).map fun bytes => some (bytes.map UInt8.ofNat)

/-- The contents of a root may be left out. -/
def ofJson? (j : Json) : Option Root := do
  match ← j.fields? ["name", "size", "constant_values"] with
  | [some name, some size, contents] =>
    return ⟨← name.str?, ← size.nat?, ← contentsOfJson? (contents.getD .null)⟩
  | _ => none

end Root

namespace Expr

def toJson : Expr → Json
  | constant c => .tagged "Constant" c.toJson
  | read root index =>
    .tagged "Read" (.obj [("array", .ofNat root), ("index", .ofNat index)])
  | concat high low => .tagged "Concat" (.arr [.ofNat high, .ofNat low])
  | extract inner offset width =>
    .tagged "Extract"
      (.obj [("expr", .ofNat inner), ("offset", .ofNat offset), ("width", .ofNat width)])
  | zeroExtend inner => .tagged "ZExt" (.ofNat inner)
  | signExtend inner => .tagged "SExt" (.ofNat inner)
  | not inner => .tagged "Not" (.ofNat inner)
  | binary op lhs rhs => .tagged "Binary" (.arr [.str op.mnemonic, .ofNat lhs, .ofNat rhs])
  | compare op lhs rhs => .tagged "Compare" (.arr [.str op.mnemonic, .ofNat lhs, .ofNat rhs])
  | select cond ifTrue ifFalse =>
    .tagged "Select"
      (.obj [("cond", .ofNat cond), ("then", .ofNat ifTrue), ("else_", .ofNat ifFalse)])

def ofJson? (j : Json) : Option Expr := do
  match ← j.tag? with
  | ("Constant", content) => return constant (← Constant.ofJson? content)
  | ("Read", content) =>
    match ← content.namedFields? ["array", "index"] with
    | [some root, some index] => return read (← root.position?) (← index.position?)
    | _ => none
  | ("Concat", .arr [high, low]) => return concat (← high.position?) (← low.position?)
  | ("Extract", content) =>
    match ← content.namedFields? ["expr", "offset", "width"] with
    | [some inner, some offset, some width] =>
      return extract (← inner.position?) (← offset.nat?) (← width.nat?)
    | _ => none
  | ("ZExt", inner) => return zeroExtend (← inner.position?)
  | ("SExt", inner) => return signExtend (← inner.position?)
  | ("Not", inner) => return not (← inner.position?)
  | ("Binary", .arr [op, lhs, rhs]) =>
    return binary (← BinaryOp.ofMnemonic? (← op.name?)) (← lhs.position?) (← rhs.position?)
  | ("Compare", .arr [op, lhs, rhs]) =>
    return compare (← CompareOp.ofMnemonic? (← op.name?)) (← lhs.position?) (← rhs.position?)
  | ("Select", content) =>
    match ← content.namedFields? ["cond", "then", "else_"] with
    | [some cond, some ifTrue, some ifFalse] =>
      return select (← cond.position?) (← ifTrue.position?) (← ifFalse.position?)
    | _ => none
  | _ => none

end Expr

namespace Graph

def nodeToJson (node : Node) : Json :=
  .obj [("expr", node.expr.toJson), ("width", .ofNat node.width)]

def nodeOfJson? (j : Json) : Option Node := do
  match ← j.fields? ["expr", "width"] with
  | [some expr, some width] => return ⟨← Expr.ofJson? expr, ← width.nat?⟩
  | _ => none

def toJson (g : Graph) : Json :=
  .obj [("nodes", .arr (g.nodes.toList.map nodeToJson)),
    ("arrays", .arr (g.roots.toList.map Root.toJson))]

def ofJson? (j : Json) : Option Graph := do
  match ← j.fields? ["nodes", "arrays"] with
  | [some nodes, some roots] =>
    return ⟨(← nodes.list? nodeOfJson?).toArray, (← roots.list? Root.ofJson?).toArray⟩
  | _ => none

end Graph

end BitvectorCode
