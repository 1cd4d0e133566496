import BitvectorCode.Layout.Ty

/-!
# Typed code

The expressions that bitvector expressions are lowered to: trees over declared variables in which
every node has a type. A constant holds one value, or one value for each element of an array type.
A read takes the bits of its type from a variable, starting at a byte index.
-/

namespace BitvectorCode

structure Variable where
  name : String
  type : Ty
deriving DecidableEq

inductive CodeOp where
  | and | or | xor | add | sub | mul | div | mod | shl | shr
  | equals | notEquals | less | lessEq | greater | greaterEq
deriving DecidableEq

namespace CodeOp

def symbol : CodeOp → String
  | and => "&"
  | or => "|"
  | xor => "^"
  | add => "+"
  | sub => "-"
  | mul => "*"
  | div => "/"
  | mod => "%"
  | shl => "<<"
  | shr => ">>"
  | equals => "=="
  | notEquals => "!="
  | less => "<"
  | lessEq => "<="
  | greater => ">"
  | greaterEq => ">="

def isComparison : CodeOp → Bool
  | equals | notEquals | less | lessEq | greater | greaterEq => true
  | _ => false

end CodeOp

inductive Code where
  | constant (type : Ty) (values : List Nat)
  | var (v : Variable)
  | read (v : Variable) (type : Ty) (index : Code)
  | concat (left right : Code) (type : Ty)
  | select (cond ifTrue ifFalse : Code) (type : Ty)
  | cast (inner : Code) (type : Ty)
  | not (inner : Code) (type : Ty)
  | binary (op : CodeOp) (lhs rhs : Code) (type : Ty)

/-- Decides two facts that together amount to `r`, the second one only if the first holds. -/
@[inline] def decideBoth {p q r : Prop} (h : r ↔ p ∧ q) (hp : Decidable p)
    (hq : Unit → Decidable q) : Decidable r :=
  match hp with
  | isFalse np => isFalse fun hr => np (h.1 hr).1
  | isTrue p =>
    match hq () with
    | isFalse nq => isFalse fun hr => nq (h.1 hr).2
    | isTrue q => isTrue (h.2 ⟨p, q⟩)

namespace Code

/-- Decides equality from left to right. A part is not walked through to compare it with itself, as
a tree with many shared parts takes much longer to walk through than to store. -/
def decEq (a b : Code) : Decidable (a = b) :=
  withPtrEqDecEq a b fun _ =>
    if h : a.ctorIdx = b.ctorIdx then
      match a, b, h with
      | constant t vs, constant t' vs', _ => decidable_of_iff (t = t' ∧ vs = vs') (by simp)
      | var v, var v', _ => decidable_of_iff (v = v') (by simp)
      | read v t i, read v' t' i', _ =>
        decideBoth (by simp) (inferInstance : Decidable (v = v')) fun _ =>
          decideBoth Iff.rfl (Ty.decEq t t') fun _ => decEq i i'
      | concat l r t, concat l' r' t', _ =>
        decideBoth (by simp) (decEq l l') fun _ =>
          decideBoth Iff.rfl (decEq r r') fun _ => Ty.decEq t t'
      | select c l r t, select c' l' r' t', _ =>
        decideBoth (by simp) (decEq c c') fun _ =>
          decideBoth Iff.rfl (decEq l l') fun _ =>
            decideBoth Iff.rfl (decEq r r') fun _ => Ty.decEq t t'
      | cast i t, cast i' t', _ => decideBoth (by simp) (decEq i i') fun _ => Ty.decEq t t'
      | not i t, not i' t', _ => decideBoth (by simp) (decEq i i') fun _ => Ty.decEq t t'
      | binary op l r t, binary op' l' r' t', _ =>
        decideBoth (by simp) (inferInstance : Decidable (op = op')) fun _ =>
          decideBoth Iff.rfl (decEq l l') fun _ =>
            decideBoth Iff.rfl (decEq r r') fun _ => Ty.decEq t t'
    else isFalse fun eq => h (eq ▸ rfl)

instance : DecidableEq Code := decEq

def scalar (type : Ty) (value : Nat) : Code := constant type [value]

def type : Code → Ty
  | constant type _ | read _ type _ | concat _ _ type | select _ _ _ type | cast _ type
  | not _ type | binary _ _ _ type => type
  | var v => v.type

def bits (c : Code) : Nat := c.type.bits

def choose (cond ifTrue ifFalse : Code) : Code := select cond ifTrue ifFalse ifTrue.type

def complement (inner : Code) : Code := not inner inner.type

/-- The value of a constant that is no array. -/
def value? : Code → Option Nat
  | constant (.array ..) _ => none
  | constant _ values => values.head?
  | _ => none

def isVariable : Code → Bool
  | var _ => true
  | _ => false

def render : Code → String
  | constant (.array ..) values => "\x7b" ++ ", ".intercalate (values.map toString) ++ "\x7d"
  | constant _ values => toString (values.headD 0)
  | var v => v.name
  | read v type index =>
    "*(" ++ type.render ++ "*)((uint8_t*)&" ++ v.name ++ " + " ++ index.render ++ ")"
  | concat left right _ =>
    "((" ++ left.render ++ " << " ++ toString right.bits ++ ") | " ++ right.render ++ ")"
  | select cond ifTrue ifFalse _ =>
    "(" ++ cond.render ++ " ? " ++ ifTrue.render ++ " : " ++ ifFalse.render ++ ")"
  | cast inner type => "((" ++ type.render ++ ")" ++ inner.render ++ ")"
  | not inner _ => "(~" ++ inner.render ++ ")"
  | binary op lhs rhs _ =>
    "(" ++ lhs.render ++ " " ++ op.symbol ++ " " ++ rhs.render ++ ")"

end Code

end BitvectorCode
