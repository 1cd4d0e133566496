import BitvectorCode.Eval.Graph
import BitvectorCode.Graph.Structure

/-!
# Oracles

Passes that need to know whether two expressions are always equal, or what value an expression may
take, ask an oracle. An oracle answers under constraints, one-bit expressions assumed to be true,
and may keep a state of its own from one question to the next.
-/

namespace BitvectorCode

structure ConstraintSet where
  constraints : List NodeId := []
deriving DecidableEq, Inhabited

/-- Adds a constraint at the end; it must be one bit wide. -/
def ConstraintSet.add (set : ConstraintSet) (g : Graph) (e : NodeId) :
    Except Error ConstraintSet :=
  if g.width e = 1 then .ok ⟨set.constraints ++ [e]⟩ else .error .sort

/-- Answers to two questions: whether two expressions are equal in every model of the constraints,
and what value an expression takes in some model, if one is known. -/
structure Oracle (σ : Type) where
  alwaysEqual : Graph → ConstraintSet → NodeId → NodeId → EStateM Error σ Bool
  evaluate : Graph → ConstraintSet → NodeId → EStateM Error σ (Option Constant)

/-- The value of an expression that reads no symbolic byte. -/
def Graph.ground (g : Graph) (e : NodeId) : Except Error (Option Constant) :=
  match g.eval e with
  | .ok c => .ok (some c)
  | .error (.symbolicRead ..) => .ok none
  | .error err => .error err

/-- Equal structure, or else equal values of two expressions that both have one. -/
def Graph.provablyEqual (g : Graph) (l r : NodeId) : Except Error Bool := do
  if g.width l ≠ g.width r then throw .sort
  if l = r ∨ g.sameStructure l r then return true
  let left ← g.ground l
  let right ← g.ground r
  match left, right with
  | some c, some d => return c == d
  | _, _ => return false

/-- The oracle that evaluates and compares structures. It consults no constraint, so it may miss an
equality but never claims one that fails. It keeps no state. -/
def Oracle.evaluation {σ : Type} : Oracle σ where
  alwaysEqual g _ l r := ofExcept (g.provablyEqual l r)
  evaluate g _ e := ofExcept (g.ground e)

end BitvectorCode
