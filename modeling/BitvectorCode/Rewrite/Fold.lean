import BitvectorCode.Eval.Graph
import BitvectorCode.Rewrite.Driver

/-!
# Constant folding

A node over constants is replaced by its value. Reads of symbolic bytes and divisions by zero have
no value and stay as they are.
-/

namespace BitvectorCode

/-- The value of a node that is not a constant but has only constant children. -/
def foldCallback : Callback Unit := fun e => do
  let g := (← get).graph
  let expr := g.expr e
  if expr.isConstant then return none
  if !expr.children.all (fun child => (g.expr child).isConstant) then return none
  match g.eval e with
  | .ok c => return some (← CallbackState.build (Build.constant c))
  | .error (.symbolicRead ..) | .error .divisionByZero => return none
  | .error err => throw err

/-- Replaces every node over constants by its value. -/
def Build.fold (e : NodeId) : Build NodeId := do
  return (← Build.rewriteFrom () foldCallback e).1

end BitvectorCode
