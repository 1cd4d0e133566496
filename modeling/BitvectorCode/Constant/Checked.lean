import BitvectorCode.Error

/-!
# Constants that may be refused

Two readings of a constant are not always possible: bits past its end, and the signed value of
anything but 1 to 64 bits.
-/

namespace BitvectorCode

/-- Bits `offset` to `offset + width - 1`, which must lie inside the constant. -/
def Constant.extract (c : Constant) (offset width : Nat) : Except Error Constant :=
  if c.bits < offset + width then .error .sort else .ok (c.slice offset width)

def Constant.toInt (c : Constant) : Except Error Int :=
  match c.toInt? with
  | some i => .ok i
  | none => .error (.tooWide c.bits)

end BitvectorCode
