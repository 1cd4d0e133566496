import BitvectorCode.Graph.Basic

/-!
# Extracts of concats

Bits taken from a concat usually lie in one of its parts. Following the concats down to that part
turns the extract into the part itself, or into an extract of a smaller expression. Bits that lie on
both sides of a boundary belong to no part.
-/

namespace BitvectorCode

namespace Graph

/-- The part of an expression that holds the bits from `offset` on, and their offset in it, found in
at most `steps` steps. The descent stops at a part that has exactly these bits, or is no concat. -/
def partWithin (g : Graph) : (steps : Nat) → (inner : NodeId) → (offset width : Nat) →
    Except Error (NodeId × Nat)
  | 0, inner, _, _ => .error (.invalidNode inner)
  | steps + 1, inner, offset, width =>
    match g.expr inner with
    | .concat high low =>
      if offset = 0 ∧ width = g.width inner then .ok (inner, offset)
      else if offset + width ≤ g.width low then g.partWithin steps low offset width
      else if g.width low ≤ offset ∧ offset - g.width low + width ≤ g.width high then
        g.partWithin steps high (offset - g.width low) width
      else .error (.straddlesConcat offset width)
    | _ => .ok (inner, offset)

/-- The part of an expression that holds the bits from `offset` on, and their offset in it. No
descent that ends meets a concat twice at one offset, and offsets never grow, which bounds the
steps also in a graph whose nodes refer to each other in a circle. -/
def part (g : Graph) (inner : NodeId) (offset width : Nat) : Except Error (NodeId × Nat) :=
  g.partWithin (g.size * (offset + 1) + 1) inner offset width

end Graph

/-- Narrows an extract of a concat to the part that holds its bits; any other expression is
answered as it is. -/
def Build.narrowExtract (e : NodeId) : Build NodeId := do
  let g ← get
  match g.expr e with
  | .extract inner offset width =>
    if (g.expr inner).isConcat then
      match g.part inner offset width with
      | .error err => throw err
      | .ok (part, offset) =>
        if offset = 0 ∧ width = g.width part then return part else Build.extract part offset width
    else return e
  | _ => return e

end BitvectorCode
