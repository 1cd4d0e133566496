/-!
# Operators

The operators of bitvector expressions. Operands share one width; an arithmetic operator keeps that
width, and a comparison gives one bit.
-/

namespace BitvectorCode

inductive BinaryOp where
  | add | sub | mul | udiv | sdiv | urem | srem | and | or | xor | shl | lshr | ashr
deriving DecidableEq

inductive CompareOp where
  | eq | ne | ult | ule | ugt | uge | slt | sle | sgt | sge
deriving DecidableEq

def BinaryOp.mnemonic : BinaryOp → String
  | add => "Add"
  | sub => "Sub"
  | mul => "Mul"
  | udiv => "UDiv"
  | sdiv => "SDiv"
  | urem => "URem"
  | srem => "SRem"
  | and => "And"
  | or => "Or"
  | xor => "Xor"
  | shl => "Shl"
  | lshr => "LShr"
  | ashr => "AShr"

def BinaryOp.all : List BinaryOp :=
  [add, sub, mul, udiv, sdiv, urem, srem, and, or, xor, shl, lshr, ashr]

def BinaryOp.ofMnemonic? (text : String) : Option BinaryOp :=
  all.find? (·.mnemonic == text)

def CompareOp.mnemonic : CompareOp → String
  | eq => "Eq"
  | ne => "Ne"
  | ult => "Ult"
  | ule => "Ule"
  | ugt => "Ugt"
  | uge => "Uge"
  | slt => "Slt"
  | sle => "Sle"
  | sgt => "Sgt"
  | sge => "Sge"

def CompareOp.all : List CompareOp :=
  [eq, ne, ult, ule, ugt, uge, slt, sle, sgt, sge]

def CompareOp.ofMnemonic? (text : String) : Option CompareOp :=
  all.find? (·.mnemonic == text)

def CompareOp.isSigned : CompareOp → Bool
  | slt | sle | sgt | sge => true
  | _ => false

end BitvectorCode
