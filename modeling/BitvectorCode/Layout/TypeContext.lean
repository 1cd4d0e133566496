import BitvectorCode.Error
import Std.Data.TreeMap

/-!
# Types by width

Every width has one type. Unless another is declared, widths up to 64 bits are unsigned integers,
and wider ones are arrays of bytes when they are whole bytes.
-/

namespace BitvectorCode

def Ty.toSigned (type : Ty) : Except Error Ty :=
  match type.toSigned? with
  | some type => .ok type
  | none => .error (.unsupported (.signedVariant type))

/-- The declared types, by width in bits. -/
structure TypeContext where
  overrides : Std.TreeMap Nat Ty := ∅
deriving Inhabited

namespace TypeContext

/-- Declares the type of a width, which must be the size of the type. -/
def declare (types : TypeContext) (width : Nat) (type : Ty) : Except Error TypeContext :=
  if type.bits = width then .ok ⟨types.overrides.insert width type⟩ else .error .sort

def typeFor (types : TypeContext) (width : Nat) : Except Error Ty :=
  match types.overrides[width]? with
  | some type => .ok type
  | none =>
    if width = 0 then .error .sort
    else if width ≤ 64 then .ok (.unsigned width)
    else if width % 8 = 0 then .ok (.array .byte (width / 8))
    else .error (.unaligned width)

end TypeContext

end BitvectorCode
