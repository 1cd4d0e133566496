import BitvectorCode.SmtLib.Answer
import BitvectorCode.SmtLib.Declaration
import BitvectorCode.Solver.Oracle

/-!
# Asking a solver

Two expressions are always equal when no model of the constraints tells them apart, and a value of
an expression is read from a model. The oracle below writes both questions as scripts, hands each to
a solver and reads the text that comes back.
-/

namespace BitvectorCode

namespace SmtLib

/-- Declares what the constraints and the expressions depend on, and asserts the constraints. -/
def preamble (g : Graph) (set : ConstraintSet) (exprs : List NodeId) : List Command :=
  [.produceModels, .setLogic] ++ declarations g (set.constraints ++ exprs) ++
    set.constraints.map fun e => .assert .eq (.definition e) (.bit true)

/-- Is there a model in which the expressions differ? -/
def differenceQuery (g : Graph) (set : ConstraintSet) (l r : NodeId) : List Command :=
  preamble g set [l, r] ++ [.assert .ne (.definition l) (.definition r), .checkSat]

def valueQuery (g : Graph) (set : ConstraintSet) (e : NodeId) : List Command :=
  preamble g set [e] ++ [.checkSat, .getValue e]

def answerText (bytes : ByteArray) : Except Error String :=
  match String.fromUTF8? bytes with
  | some text => .ok text
  | none => .error (.solver .notUtf8)

/-- No model tells the expressions apart. -/
def readEquality (answer : String) : Except Error Bool :=
  match verdict? answer with
  | some (.unsat, _) => .ok true
  | some _ => .ok false
  | none => .error (.solver (.unexpected answer))

/-- The value in the model, when there is one and it can be read. -/
def readValue (answer : String) (bits : Nat) : Except Error (Option Constant) :=
  match verdict? answer with
  | some (.sat, rest) => .ok (valueIn rest bits)
  | some _ => .ok none
  | none => .error (.solver (.unexpected answer))

end SmtLib

open SmtLib in
/-- The oracle that asks a solver, given how to run one on a script. -/
def Oracle.ofSolver {σ : Type} (run : String → EStateM Error σ ByteArray) : Oracle σ where
  alwaysEqual g set l r := do
    if g.width l ≠ g.width r then throw .sort
    if l = r then return true
    let bytes ← run (script (differenceQuery g set l r))
    ofExcept (do readEquality (← answerText bytes))
  evaluate g set e := do
    let bytes ← run (script (valueQuery g set e))
    ofExcept (do readValue (← answerText bytes) (g.width e))

end BitvectorCode
