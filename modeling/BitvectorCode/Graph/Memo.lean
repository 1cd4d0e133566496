import BitvectorCode.Graph.Basic
import Std.Data.TreeMap

/-!
# Remembered answers

A walk over a graph meets a shared node once for every path to it. Walks that compute an answer for
each node keep the answers in a table and look there first.
-/

namespace BitvectorCode

abbrev Answers (α : Type) := Std.TreeMap NodeId α

/-- The remembered answer for `e`, or else the computed one, which is then remembered. -/
@[inline] def remember {α : Type} {m : Type → Type} [Monad m] [MonadStateOf (Answers α) m]
    (e : NodeId) (answer : m α) : m α := do
  match (← get)[e]? with
  | some a => return a
  | none =>
    let a ← answer
    modify (·.insert e a)
    return a

end BitvectorCode
