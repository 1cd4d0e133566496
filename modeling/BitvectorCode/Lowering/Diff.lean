import BitvectorCode.Analysis.Value
import BitvectorCode.Layout.Elements
import BitvectorCode.Lowering.Lower
import BitvectorCode.Rewrite.NarrowExtract

/-!
# Differences between two states

Given the value of a struct or an array before and after, the fields and elements that may have
changed are listed with their new values. A part is left out when the oracle confirms that it is the
same in both states.
-/

namespace BitvectorCode

/-- A step from a value into a part of it. -/
inductive PathStep where
  | field (name : String)
  | element (index : Nat)
deriving DecidableEq

def PathStep.render : PathStep → String
  | field name => "." ++ name
  | element index => s!"[{index}]"

/-- A part of a value. -/
structure Location where
  base : Code
  path : List PathStep := []
deriving DecidableEq

namespace Location

def step (place : Location) (part : PathStep) : Location :=
  { place with path := place.path ++ [part] }

def render (place : Location) : String :=
  place.base.render ++ String.join (place.path.map PathStep.render)

end Location

/-- A new value for one part. -/
structure Assignment where
  place : Location
  value : Code
deriving DecidableEq

def Assignment.render (a : Assignment) : String :=
  a.place.render ++ " = " ++ a.value.render ++ ";"

/-- The bits of an expression from `offset` on: the expression itself if they are all of it, a part
of a concat if they lie in one, or else an extract. -/
def Build.slice (e : NodeId) (offset width : Nat) : Build NodeId := do
  if offset = 0 ∧ width = (← get).width e then return e
  let extract ← Build.extract e offset width
  fun g => match Build.narrowExtract extract g with
    | .error (.straddlesConcat ..) g => .ok extract g
    | result => result

namespace Diff

variable {σ : Type} (env : Environment) (oracle : Oracle σ) (constraints : ConstraintSet)

def slices (before after : NodeId) (offset width : Nat) :
    EStateM Error (Inquiry σ) (NodeId × NodeId × Bool) := do
  let before ← Inquiry.build (Build.slice before offset width)
  let after ← Inquiry.build (Build.slice after offset width)
  let equal ← Inquiry.ask fun g => oracle.alwaysEqual g constraints before after
  return (before, after, equal)

def assign (place : Location) (after : NodeId) : EStateM Error (Inquiry σ) Assignment := do
  return ⟨place, ← ofExcept (env.lower (← get).graph after)⟩

/-- Compares element `i` of an array, and puts its assignment after those found before. -/
def element (before after : NodeId) (place : Location) (bits i : Nat) (found : Array Assignment) :
    EStateM Error (Inquiry σ) (Array Assignment) := do
  let (_, after, equal) ← slices oracle constraints before after (i * bits) bits
  if equal then return found
  else return found.push (← assign env (place.step (.element i)) after)

mutual
/-- The assignments that turn a value of the given type into another. -/
def between (before after : NodeId) (place : Location) :
    Ty → EStateM Error (Inquiry σ) (List Assignment)
  | .struct _ fields _ => betweenFields before after place fields
  | .array elementType count => do
    let bits := elementType.bits
    let found ← foldElements (element env oracle constraints before after place bits) count #[]
    return found.toList
  | .primitive .. => throw (.unsupported (.diffOfPrimitive place.render))
  | .pointer _ => throw (.unsupported (.diffThroughPointer place.render))

def betweenFields (before after : NodeId) (place : Location) :
    List (Field Ty) → EStateM Error (Inquiry σ) (List Assignment)
  | [] => return []
  | ⟨name, offset, type⟩ :: rest => do
    let (fieldBefore, fieldAfter, equal) ←
      slices oracle constraints before after (offset * 8) type.bits
    let place' := place.step (.field name)
    let first ←
      if equal then pure []
      else match type with
        | .primitive .. | .pointer _ => do pure [← assign env place' fieldAfter]
        | _ => between fieldBefore fieldAfter place' type
    return first ++ (← betweenFields before after place rest)
end

end Diff

open Diff in
/-- The assignments that turn the value of `before` into the value of `after`. The first must lower
to a struct, an array or a pointer to one. -/
def Environment.diff {σ : Type} (env : Environment) (oracle : Oracle σ)
    (constraints : ConstraintSet) (before after : NodeId) :
    EStateM Error (Inquiry σ) (List Assignment) := do
  let g := (← get).graph
  if g.width before ≠ g.width after then throw .sort
  let base ← ofExcept (env.lower g before)
  let _ ← ofExcept (env.lower g after)
  between env oracle constraints before after { base } base.type.target

end BitvectorCode
