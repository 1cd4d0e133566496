import BitvectorCode.Constant.Basic
import BitvectorCode.Expr.Operator

/-!
# Expression nodes

An expression is a graph of nodes. A node names its children by their position in the graph, so
equal positions are the same node and a shared part is written once. Leaves are constants and
one-byte reads of *roots*: named arrays of bytes, whose contents are either unknown or given.
-/

namespace BitvectorCode

/-- The position of a node in its graph. -/
abbrev NodeId := Nat

def NodeId.render (e : NodeId) : String := s!"N{e}"

/-- The position of a root in its graph. -/
abbrev RootId := Nat

/-- A named array of `size` bytes. With `contents`, a byte inside them is known; without, every byte
is symbolic. -/
structure Root where
  name : String
  size : Nat
  contents : Option (List UInt8)
deriving DecidableEq, Inhabited

namespace Root

def symbolic (name : String) (size : Nat) : Root := ⟨name, size, none⟩

def known (name : String) (contents : List UInt8) : Root := ⟨name, contents.length, some contents⟩

def byte? (root : Root) (index : Nat) : Option UInt8 :=
  root.contents.bind (·[index]?)

def renamed (root : Root) (name : String) : Root := { root with name }

def render (root : Root) : String := root.name ++ "[" ++ toString root.size ++ "]"

end Root

inductive Expr where
  | constant (c : Constant)
  | read (root : RootId) (index : NodeId)
  | concat (high low : NodeId)
  | extract (inner : NodeId) (offset width : Nat)
  | zeroExtend (inner : NodeId)
  | signExtend (inner : NodeId)
  | not (inner : NodeId)
  | binary (op : BinaryOp) (lhs rhs : NodeId)
  | compare (op : CompareOp) (lhs rhs : NodeId)
  | select (cond ifTrue ifFalse : NodeId)
deriving DecidableEq, Inhabited

namespace Expr

def children : Expr → List NodeId
  | constant _ => []
  | read _ index => [index]
  | extract inner _ _ | zeroExtend inner | signExtend inner | not inner => [inner]
  | concat lhs rhs | binary _ lhs rhs | compare _ lhs rhs => [lhs, rhs]
  | select cond ifTrue ifFalse => [cond, ifTrue, ifFalse]

/-- The same node over other children, given from left to right; there must be as many of them. -/
def withChildren? : Expr → List NodeId → Option Expr
  | constant c, [] => some (constant c)
  | read root _, [index] => some (read root index)
  | concat _ _, [high, low] => some (concat high low)
  | extract _ offset width, [inner] => some (extract inner offset width)
  | zeroExtend _, [inner] => some (zeroExtend inner)
  | signExtend _, [inner] => some (signExtend inner)
  | not _, [inner] => some (not inner)
  | binary op _ _, [lhs, rhs] => some (binary op lhs rhs)
  | compare op _ _, [lhs, rhs] => some (compare op lhs rhs)
  | select _ _ _, [cond, ifTrue, ifFalse] => some (select cond ifTrue ifFalse)
  | _, _ => none

theorem withChildren?_children (e : Expr) : e.withChildren? e.children = some e := by
  cases e <;> rfl

theorem children_of_withChildren? {e e' : Expr} {ids : List NodeId}
    (h : e.withChildren? ids = some e') : e'.children = ids := by
  unfold withChildren? at h
  split at h <;> simp_all [children] <;> subst_vars <;> rfl

theorem isSome_withChildren? (e : Expr) (ids : List NodeId) :
    (e.withChildren? ids).isSome = (ids.length == e.children.length) := by
  cases e <;> rcases ids with _ | ⟨_, _ | ⟨_, _ | ⟨_, _ | _⟩⟩⟩ <;> simp [withChildren?, children]

def isConstant : Expr → Bool
  | constant _ => true
  | _ => false

def constant? : Expr → Option Constant
  | constant c => some c
  | _ => none

def isConcat : Expr → Bool
  | concat _ _ => true
  | _ => false

def mnemonic : Expr → String
  | constant _ => "Constant"
  | read _ _ => "Read"
  | concat _ _ => "Concat"
  | extract _ _ _ => "Extract"
  | zeroExtend _ => "ZExt"
  | signExtend _ => "SExt"
  | not _ => "Not"
  | binary op _ _ => op.mnemonic
  | compare op _ _ => op.mnemonic
  | select _ _ _ => "Select"

end Expr

end BitvectorCode
