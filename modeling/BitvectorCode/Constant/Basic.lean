import BitvectorCode.Constant.Digits

/-!
# Constant bitvectors

A constant is a natural number read at a number of bits. The constructors keep only the low bits,
so their values lie below `2 ^ bits`; values of any width are supported, because a whole packet
header may be one constant. A constant read back from a saved form may hold more than its bits
allow, and every operation here says what it does with such a value.
-/

namespace BitvectorCode

def ones (bits : Nat) : Nat := 1 <<< bits - 1

/-- The low `bits` bits of `value`; a value that is short enough is not touched. -/
def lowBits (value bits : Nat) : Nat :=
  if value.log2 < bits then value else value &&& ones bits

/-- The number that little-endian `bytes` stand for. -/
def natOfBytes (bytes : List UInt8) : Nat :=
  bytes.foldr (fun byte high => byte.toNat + 256 * high) 0

/-- The low `count` bytes of `value`, least significant first. -/
def bytesOfNat : (count value : Nat) → List UInt8
  | 0, _ => []
  | count + 1, value => UInt8.ofNat value :: bytesOfNat count (value / 256)

@[simp] theorem length_bytesOfNat (count value : Nat) :
    (bytesOfNat count value).length = count := by
  induction count generalizing value with
  | zero => rfl
  | succ count ih => simp [bytesOfNat, ih]

/-- A bitvector value and its width. Constants are ordered by value, then by width. -/
structure Constant where
  value : Nat
  bits : Nat
deriving DecidableEq, Inhabited, Ord

namespace Constant

/-- The constant of `bits` bits that agrees with `value` modulo `2 ^ bits`. -/
def ofNat (value bits : Nat) : Constant := ⟨lowBits value bits, bits⟩

/-- The constant that `bytes` stand for, least significant first, eight bits for each. -/
def ofBytes (bytes : List UInt8) : Constant := ofNat (natOfBytes bytes) (8 * bytes.length)

def ofBool (b : Bool) : Constant := ofNat b.toNat 1

@[simp] theorem bits_ofNat (value bits : Nat) : (ofNat value bits).bits = bits := rfl

/-- The value, when a 64-bit word holds it. -/
def word? (c : Constant) : Option Nat := if c.value < UInt64.size then some c.value else none

def isZero (c : Constant) : Bool := c.value == 0

def isOne (c : Constant) : Bool := c.value == 1

def isNegative (c : Constant) : Bool := 0 < c.bits && c.value.testBit (c.bits - 1)

/-- Bits `offset` to `offset + width - 1`; past the top the bits are zero. -/
def slice (c : Constant) (offset width : Nat) : Constant := ofNat (c.value >>> offset) width

def concat (high low : Constant) : Constant :=
  ofNat (high.value <<< low.bits ||| low.value) (high.bits + low.bits)

/-- The same value at another width; a narrower width keeps the low bits. -/
def zeroExtend (c : Constant) (bits : Nat) : Constant := ofNat c.value bits

/-- The same two's complement value at a wider width; a narrower width keeps the low bits. -/
def signExtend (c : Constant) (bits : Nat) : Constant :=
  if c.isNegative && c.bits < bits then ofNat (c.value ||| (ones bits ^^^ ones c.bits)) bits
  else ofNat c.value bits

/-- The two's complement reading, defined for 1 to 64 bits. Bits above the width are kept when the
sign bit is clear and overwritten when it is set, which only a value too large for its width
shows. -/
def toInt? (c : Constant) : Option Int :=
  if c.bits = 0 ∨ 64 < c.bits ∨ UInt64.size ≤ c.value then none
  else
    let word := if c.isNegative then c.value ||| (ones 64 ^^^ ones c.bits) else c.value
    some (BitVec.ofNat 64 word).toInt

/-- The little-endian bytes, as many as the width needs. -/
def toBytes (c : Constant) : List UInt8 := bytesOfNat ((c.bits + 7) / 8) c.value

/-- The text `0xVALUE:BITS`, with capital hexadecimal digits. -/
def render (c : Constant) : String :=
  "0x" ++ hexadecimal c.value ++ ":" ++ toString c.bits

end Constant

end BitvectorCode
