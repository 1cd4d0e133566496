import BitvectorCode.Constant.Checked

/-!
# Operators on constants

Arithmetic wraps around at the width of the node. A shift by the width or more leaves nothing but
the fill, and division truncates toward zero. Signed division and signed comparison are defined for
1 to 64 bits; a zero divisor is refused before the width is looked at.
-/

namespace BitvectorCode

/-- The distance of a shift, when it is shorter than the width. -/
def Constant.shift? (amount : Constant) (width : Nat) : Option Nat :=
  if amount.value < width then some amount.value else none

/-- Shifts right and fills with `fill`, a number that is all zeros or all ones. -/
def shiftRightFilling (value fill : Nat) (amount : Option Nat) (width : Nat) : Constant :=
  match amount with
  | some k => .ofNat (value >>> k ||| (fill ^^^ (fill >>> k))) width
  | none => .ofNat fill width

/-- The two's complement form of `i` in one 64-bit word. -/
def wordOfInt (i : Int) : Nat := (BitVec.ofInt 64 i).toNat

def signedDivision (f : Int → Int → Int) (l r : Constant) (width : Nat) :
    Except Error Constant := do
  if r.isZero then throw .divisionByZero
  let dividend ← l.toInt
  let divisor ← r.toInt
  return .ofNat (wordOfInt (f dividend divisor)) width

def unsignedDivision (f : Nat → Nat → Nat) (l r : Constant) (width : Nat) :
    Except Error Constant :=
  if r.isZero then .error .divisionByZero else .ok (.ofNat (f l.value r.value) width)

def BinaryOp.eval (op : BinaryOp) (l r : Constant) (width : Nat) : Except Error Constant :=
  match op with
  | add => .ok (.ofNat (l.value + r.value) width)
  | sub => .ok (.ofNat (l.value + 1 <<< width - r.value) width)
  | mul => .ok (.ofNat (l.value * r.value) width)
  | udiv => unsignedDivision (· / ·) l r width
  | urem => unsignedDivision (· % ·) l r width
  | sdiv => signedDivision Int.tdiv l r width
  | srem => signedDivision Int.tmod l r width
  | and => .ok (.ofNat (l.value &&& r.value) width)
  | or => .ok (.ofNat (l.value ||| r.value) width)
  | xor => .ok (.ofNat (l.value ^^^ r.value) width)
  | shl => .ok ((r.shift? width).elim (.ofNat 0 width) fun k => .ofNat (l.value <<< k) width)
  | lshr => .ok (shiftRightFilling l.value 0 (r.shift? width) width)
  | ashr =>
    .ok (shiftRightFilling l.value (if l.isNegative then ones width else 0) (r.shift? width) width)

def signedComparison (f : Int → Int → Bool) (l r : Constant) : Except Error Constant := do
  let left ← l.toInt
  let right ← r.toInt
  return .ofBool (f left right)

def CompareOp.eval (op : CompareOp) (l r : Constant) : Except Error Constant :=
  match op with
  | eq => .ok (.ofBool (l.value == r.value))
  | ne => .ok (.ofBool (l.value != r.value))
  | ult => .ok (.ofBool (l.value < r.value))
  | ule => .ok (.ofBool (l.value ≤ r.value))
  | ugt => .ok (.ofBool (l.value > r.value))
  | uge => .ok (.ofBool (l.value ≥ r.value))
  | slt => signedComparison (· < ·) l r
  | sle => signedComparison (· ≤ ·) l r
  | sgt => signedComparison (· > ·) l r
  | sge => signedComparison (· ≥ ·) l r

end BitvectorCode
