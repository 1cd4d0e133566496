import BitvectorCode.Code.Basic
import BitvectorCode.Layout.TypeContext

/-!
# Simplifying code

Code is built from the leaves up, and each new node is simplified before it gets a parent, so only
the top of a tree has to be looked at. Neighbouring reads become one read, two constants one
constant, a read of a whole variable the variable, and a cast to the same type disappears.
-/

namespace BitvectorCode.Code

/-- A read of a whole variable is the variable. -/
def simplifyRead (v : Variable) (type : Ty) (index : Code) : Code :=
  if index.value? = some 0 ∧ type.bits = v.type.bits then var v else read v type index

/-- The code for two neighbouring reads of whole bytes of one variable, the right one lower. -/
def mergeReads (types : TypeContext) : Code → Code → Except Error (Option Code)
  | read lv lt li, read rv rt ri =>
    if lv ≠ rv ∨ lt.bits % 8 ≠ 0 ∨ rt.bits % 8 ≠ 0 then .ok none
    else match li.value?, ri.value? with
      | some l, some r =>
        if l = r + rt.bytes then do
          let type ← types.typeFor (lt.bits + rt.bits)
          return some (simplifyRead lv type (scalar ri.type r))
        else .ok none
      | _, _ => .ok none
  | _, _ => .ok none

/-- The constant that two constants of together at most 64 bits make; the left one is higher. -/
def joinConstants (types : TypeContext) (left right : Code) : Except Error (Option Code) :=
  match left.value?, right.value? with
  | some l, some r =>
    let bits := left.bits + right.bits
    if bits ≤ 64 then do
      let value := if 64 ≤ right.bits then r else lowBits (l <<< right.bits) 64 ||| r
      return some (scalar (← types.typeFor bits) value)
    else .ok none
  | _, _ => .ok none

def simplify (types : TypeContext) (code : Code) : Except Error Code :=
  match code with
  | concat left right _ => do
    match ← mergeReads types left right with
    | some merged => return merged
    | none => return (← joinConstants types left right).getD code
  | read v type index => .ok (simplifyRead v type index)
  | cast inner type => .ok (if inner.type = type then inner else code)
  | _ => .ok code

end BitvectorCode.Code
