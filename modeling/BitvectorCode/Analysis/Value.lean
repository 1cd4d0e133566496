import BitvectorCode.Graph.Render
import BitvectorCode.Solver.Oracle

/-!
# Constant values

An expression is constant when it is a constant node, or when the oracle offers a value for it and
then confirms that the expression always equals that value. The offered value is added to the graph
to ask about it.
-/

namespace BitvectorCode

/-- A graph that may grow while an oracle is asked. -/
structure Inquiry (σ : Type) where
  graph : Graph
  oracle : σ

namespace Inquiry

variable {σ α : Type}

def build (x : Build α) : EStateM Error (Inquiry σ) α := fun ⟨g, oracle⟩ =>
  match x g with
  | .ok a g => .ok a ⟨g, oracle⟩
  | .error err g => .error err ⟨g, oracle⟩

def ask (question : Graph → EStateM Error σ α) : EStateM Error (Inquiry σ) α := fun ⟨g, oracle⟩ =>
  match question g oracle with
  | .ok a oracle => .ok a ⟨g, oracle⟩
  | .error err oracle => .error err ⟨g, oracle⟩

variable (oracle : Oracle σ) (constraints : ConstraintSet)

/-- The one value an expression takes, if it is known to take only one. -/
def constantValue (e : NodeId) : EStateM Error (Inquiry σ) (Option Constant) := do
  match (← get).graph.expr e with
  | .constant c => return some c
  | _ =>
    match ← ask fun g => oracle.evaluate g constraints e with
    | none => return none
    | some value =>
      let candidate ← build (Build.constant value)
      if ← ask fun g => oracle.alwaysEqual g constraints e candidate then return some value
      else return none

def isConstant (e : NodeId) : EStateM Error (Inquiry σ) Bool :=
  return (← constantValue oracle constraints e).isSome

/-- The constant value of an expression of at most 64 bits. -/
def signedConstant (e : NodeId) : EStateM Error (Inquiry σ) Constant := do
  let width := (← get).graph.width e
  if 64 < width then throw (.tooWide width)
  match ← constantValue oracle constraints e with
  | some value => return value
  | none => throw (.notConstant ((← get).graph.render e))

/-- The constant value of an expression is negative as a two's complement number. -/
def isNegativeConstant (e : NodeId) : EStateM Error (Inquiry σ) Bool :=
  return (← signedConstant oracle constraints e).isNegative

def signedValue (e : NodeId) : EStateM Error (Inquiry σ) Int := do
  ofExcept (← signedConstant oracle constraints e).toInt

end Inquiry

end BitvectorCode
