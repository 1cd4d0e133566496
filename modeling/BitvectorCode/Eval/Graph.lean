import BitvectorCode.Eval.Operator
import BitvectorCode.Graph.Memo

/-!
# Evaluation

An expression whose reads all hit known bytes has a value. Operands are evaluated from left to right
and only the chosen branch of a selection is, so the first failure on that path is the answer.
-/

namespace BitvectorCode.Graph

def evalWithin (g : Graph) : (depth : Nat) → NodeId → EStateM Error (Answers Constant) Constant
  | 0, e => throw (.invalidNode e)
  | depth + 1, e => remember e do
    let width := g.width e
    match g.expr e with
    | .constant c => return c
    | .read r index =>
      let root := g.root r
      let i ← g.evalWithin depth index
      match i.word?.bind root.byte? with
      | some byte => return .ofNat byte.toNat 8
      | none => throw (.symbolicRead root.name i)
    | .concat high low =>
      let h ← g.evalWithin depth high
      let l ← g.evalWithin depth low
      return h.concat l
    | .extract inner offset width =>
      let c ← g.evalWithin depth inner
      ofExcept (c.extract offset width)
    | .zeroExtend inner => return (← g.evalWithin depth inner).zeroExtend width
    | .signExtend inner => return (← g.evalWithin depth inner).signExtend width
    | .not inner =>
      let c ← g.evalWithin depth inner
      return .ofNat (c.value ^^^ ones width) width
    | .binary op lhs rhs =>
      let l ← g.evalWithin depth lhs
      let r ← g.evalWithin depth rhs
      ofExcept (op.eval l r width)
    | .compare op lhs rhs =>
      let l ← g.evalWithin depth lhs
      let r ← g.evalWithin depth rhs
      ofExcept (op.eval l r)
    | .select cond ifTrue ifFalse =>
      let c ← g.evalWithin depth cond
      if c.isOne then g.evalWithin depth ifTrue else g.evalWithin depth ifFalse

def eval (g : Graph) (e : NodeId) : Except Error Constant :=
  match (g.evalWithin g.size e).run ∅ with
  | .ok c _ => .ok c
  | .error e _ => .error e

end BitvectorCode.Graph
