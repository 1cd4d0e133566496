import BitvectorCode.Eval.Operator
import BitvectorCode.Graph.Tree

/-!
# Values of trees

The plain meaning of an expression, given values for some of the symbolic bytes. Known contents of a
root come first, and a byte without a value makes the evaluation fail.
-/

namespace BitvectorCode

/-- Values of symbolic bytes, by root and index. -/
abbrev Bytes := Root → Nat → Option UInt8

/-- The byte of a root at an index, known or given. -/
def Bytes.at? (bytes : Bytes) (root : Root) (index : Constant) : Option UInt8 :=
  index.word?.bind fun i => root.byte? i <|> bytes root i

/-- The value of a tree. Operands are evaluated from left to right, and of a selection only the
chosen branch is. -/
def Tree.eval (bytes : Bytes) : Tree → Except Error Constant
  | constant c => .ok c
  | read root index => do
    let i ← index.eval bytes
    match bytes.at? root i with
    | some byte => .ok (.ofNat byte.toNat 8)
    | none => .error (.symbolicRead root.name i)
  | concat high low => do
    let h ← high.eval bytes
    let l ← low.eval bytes
    .ok (h.concat l)
  | extract inner offset width => do
    let c ← inner.eval bytes
    c.extract offset width
  | zeroExtend inner width => do
    let c ← inner.eval bytes
    .ok (c.zeroExtend width)
  | signExtend inner width => do
    let c ← inner.eval bytes
    .ok (c.signExtend width)
  | not inner => do
    let c ← inner.eval bytes
    .ok (.ofNat (c.value ^^^ ones inner.width) inner.width)
  | binary op lhs rhs => do
    let l ← lhs.eval bytes
    let r ← rhs.eval bytes
    op.eval l r lhs.width
  | compare op lhs rhs => do
    let l ← lhs.eval bytes
    let r ← rhs.eval bytes
    op.eval l r
  | select cond ifTrue ifFalse => do
    let c ← cond.eval bytes
    if c.isOne then ifTrue.eval bytes else ifFalse.eval bytes

end BitvectorCode
