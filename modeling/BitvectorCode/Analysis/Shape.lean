import BitvectorCode.Analysis.Symbols
import BitvectorCode.Graph.Memo

/-!
# Shapes of expressions

Questions answered from the nodes alone. A negative answer means that the shape was not found, not
that the value cannot have the property.
-/

namespace BitvectorCode.Graph

def isBoolWithin (g : Graph) : (depth : Nat) → NodeId → StateM (Answers Bool) Bool
  | 0, _ => return false
  | depth + 1, e => remember e do
    if g.width e = 1 then return true
    match g.expr e with
    | .zeroExtend inner | .signExtend inner | .not inner => g.isBoolWithin depth inner
    | .compare .. => return true
    | .binary .and lhs rhs | .binary .or lhs rhs | .binary .xor lhs rhs =>
      if ← g.isBoolWithin depth lhs then g.isBoolWithin depth rhs else return false
    | _ => return false

/-- One bit wide, or built by extensions, negation and bitwise operators from truth values. -/
def isBool (g : Graph) (e : NodeId) : Bool := ((g.isBoolWithin g.size e).run ∅).1

def bytesReadWithin (g : Graph) :
    (depth : Nat) → NodeId → StateM (Answers (Option (Array Nat))) (Option (Array Nat))
  | 0, _ => return none
  | depth + 1, e => remember e do
    match g.expr e with
    | .read .. => return (g.readIndex? e).map (#[·])
    | .concat high low =>
      match ← g.bytesReadWithin depth high with
      | none => return none
      | some left => return (← g.bytesReadWithin depth low).map (left ++ ·)
    | _ => return none

/-- The constant indices of the reads in a tree of reads and concats, from left to right. There is
no answer for an index that is not constant and for any other node. -/
def bytesRead (g : Graph) (e : NodeId) : Option (List Nat) :=
  ((g.bytesReadWithin g.size e).run ∅).1.map Array.toList

/-- A concat of the bytes `n - 1, …, 1, 0` of one symbol: its little-endian value. -/
def isLittleEndianRead (g : Graph) (e : NodeId) : Bool :=
  let width := g.width e
  (g.expr e).isConcat && width % 8 == 0 && (g.symbols e).size == 1 &&
    (g.bytesRead e).any fun indices =>
      indices.length == width / 8 && indices == (List.range indices.length).reverse

end BitvectorCode.Graph
