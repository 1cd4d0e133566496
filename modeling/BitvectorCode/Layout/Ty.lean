/-!
# Declared types

Integers of a given number of bits, pointers, structs and arrays. A struct lists its fields by byte
offset and states its size; bytes that no field covers are padding. Sizes are counted in bits, and
rounded up where bytes are asked for. They are natural numbers here, for 64-bit words: every type is
taken to have a size that a word can hold, with the bits that rounding adds, and the same is meant
of the sizes of structs and of what their fields cover.
-/

namespace BitvectorCode

/-- A named part of a struct, `offset` bytes from its start. -/
structure Field (τ : Type) where
  name : String
  offset : Nat
  type : τ
deriving DecidableEq

inductive Ty where
  | primitive (bits : Nat) (signed : Bool)
  | pointer (pointee : Ty)
  | struct (name : String) (fields : List (Field Ty)) (size : Nat)
  | array (element : Ty) (count : Nat)
deriving Inhabited

namespace Ty

mutual
def decEq : (a b : Ty) → Decidable (a = b)
  | primitive b s, primitive b' s' =>
    if h : b = b' ∧ s = s' then isTrue (by simp [h]) else isFalse (by simpa using h)
  | pointer a, pointer b =>
    match decEq a b with
    | isTrue h => isTrue (by simp [h])
    | isFalse h => isFalse (by simpa using h)
  | struct n fs s, struct n' fs' s' =>
    if h : n = n' ∧ s = s' then
      match decEqFields fs fs' with
      | isTrue hf => isTrue (by simp [h, hf])
      | isFalse hf => isFalse (by simp [hf])
    else isFalse (by grind)
  | array a n, array b m =>
    if h : n = m then
      match decEq a b with
      | isTrue ha => isTrue (by simp [h, ha])
      | isFalse ha => isFalse (by simp [ha])
    else isFalse (by simp [h])
  | primitive .., pointer _ | primitive .., struct .. | primitive .., array .. => isFalse nofun
  | pointer _, primitive .. | pointer _, struct .. | pointer _, array .. => isFalse nofun
  | struct .., primitive .. | struct .., pointer _ | struct .., array .. => isFalse nofun
  | array .., primitive .. | array .., pointer _ | array .., struct .. => isFalse nofun

def decEqFields : (a b : List (Field Ty)) → Decidable (a = b)
  | [], [] => isTrue rfl
  | [], _ :: _ => isFalse nofun
  | _ :: _, [] => isFalse nofun
  | ⟨n, o, t⟩ :: fs, ⟨n', o', t'⟩ :: fs' =>
    if h : n = n' ∧ o = o' then
      match decEq t t', decEqFields fs fs' with
      | isTrue ht, isTrue hf => isTrue (by simp [h, ht, hf])
      | isFalse ht, _ => isFalse (by simp [ht])
      | _, isFalse hf => isFalse (by simp [hf])
    else isFalse (by grind)
end

instance : DecidableEq Ty := decEq

mutual
/-- Primitives come before pointers, pointers before structs and structs before arrays; two types of
one kind are ordered by their parts from left to right. -/
def order : Ty → Ty → Ordering
  | primitive b s, primitive b' s' => (compare b b').then (compare s s')
  | primitive .., _ => .lt
  | _, primitive .. => .gt
  | pointer a, pointer b => order a b
  | pointer _, _ => .lt
  | _, pointer _ => .gt
  | struct n fs s, struct n' fs' s' =>
    ((compare n n').then (orderFields fs fs')).then (compare s s')
  | struct .., _ => .lt
  | _, struct .. => .gt
  | array a n, array b m => (order a b).then (compare n m)

/-- Lists of fields are ordered by their first difference, a shorter list before its extensions. -/
def orderFields : List (Field Ty) → List (Field Ty) → Ordering
  | [], [] => .eq
  | [], _ :: _ => .lt
  | _ :: _, [] => .gt
  | ⟨n, o, t⟩ :: fs, ⟨n', o', t'⟩ :: fs' =>
    (((compare n n').then (compare o o')).then (order t t')).then (orderFields fs fs')
end

instance : Ord Ty := ⟨order⟩

def unsigned (bits : Nat) : Ty := primitive bits false

def signed (bits : Nat) : Ty := primitive bits true

def byte : Ty := unsigned 8

/-- Pointers take 64 bits whatever they point to. -/
def bits : Ty → Nat
  | primitive bits _ => bits
  | pointer _ => 64
  | struct _ _ size => size * 8
  | array element count => element.bits * count

def bytes (t : Ty) : Nat := (t.bits + 7) / 8

def isPrimitive : Ty → Bool
  | primitive .. => true
  | _ => false

def isSigned : Ty → Bool
  | primitive _ signed => signed
  | _ => false

/-- What a chain of pointers finally points to; any other type stands for itself. -/
def target : Ty → Ty
  | pointer pointee => pointee.target
  | t => t

/-- The signed primitive of the same size. -/
def toSigned? : Ty → Option Ty
  | primitive bits _ => some (signed bits)
  | _ => none

def render : Ty → String
  | primitive bits signed => (if signed then "i" else "u") ++ toString bits
  | pointer pointee => pointee.render ++ "*"
  | struct name _ _ => "struct " ++ name
  | array element count => element.render ++ "[" ++ toString count ++ "]"

end Ty

end BitvectorCode
