import BitvectorCode.Code.Basic
import BitvectorCode.Proofs.Constant.Bytes
import BitvectorCode.Proofs.Eval.Operator

/-!
# The meaning of code

Code has a value once every variable has its bytes. The value of a node is a constant of the bits of
its type; only a division by zero has none. Division, remainder, right shift and the orderings read
their operands as two's complement numbers exactly when the left one has a signed type.
-/

namespace BitvectorCode

abbrev Store := Variable → Nat → UInt8

/-- The `bits` bits of a variable from the byte `start` on, the first byte lowest. -/
def Store.read (store : Store) (v : Variable) (start bits : Nat) : Constant :=
  .ofNat (natOfBytes ((List.range ((bits + 7) / 8)).map fun i => store v (start + i))) bits

def Ty.digitBits : Ty → Nat
  | array element _ => element.bits
  | t => t.bits

/-- What the values of a constant make up, the first one lowest. -/
def Ty.literal (type : Ty) (values : List Nat) : Constant :=
  ⟨Nat.ofDigits (2 ^ type.digitBits) values, type.bits⟩

namespace Constant

def reading (c : Constant) (signed : Bool) : Int :=
  if signed then (BitVec.ofNat c.bits c.value).toInt else c.value

def ofInt (i : Int) (bits : Nat) : Constant := ofBitVec (BitVec.ofInt bits i)

end Constant

/-- The value of an operator at `bits` bits. A comparison gives one or zero. -/
def CodeOp.eval (op : CodeOp) (signed : Bool) (l r : Constant) (bits : Nat) : Option Constant :=
  match op with
  | and => some (.ofNat (l.value &&& r.value) bits)
  | or => some (.ofNat (l.value ||| r.value) bits)
  | xor => some (.ofNat (l.value ^^^ r.value) bits)
  | add => some (.ofNat (l.value + r.value) bits)
  | sub => some (.ofInt (l.value - r.value) bits)
  | mul => some (.ofNat (l.value * r.value) bits)
  | div =>
    if r.isZero then none else some (.ofInt ((l.reading signed).tdiv (r.reading signed)) bits)
  | mod =>
    if r.isZero then none else some (.ofInt ((l.reading signed).tmod (r.reading signed)) bits)
  | shl => some (.ofNat (l.value <<< r.value) bits)
  | shr => some (.ofInt (l.reading signed >>> r.value) bits)
  | equals => some (.ofNat (l.value == r.value).toNat bits)
  | notEquals => some (.ofNat (l.value != r.value).toNat bits)
  | less => some (.ofNat (decide (l.reading signed < r.reading signed)).toNat bits)
  | lessEq => some (.ofNat (decide (l.reading signed ≤ r.reading signed)).toNat bits)
  | greater => some (.ofNat (decide (l.reading signed > r.reading signed)).toNat bits)
  | greaterEq => some (.ofNat (decide (l.reading signed ≥ r.reading signed)).toNat bits)

/-- The value of code over a store. Of a selection only the chosen branch is evaluated. -/
def Code.eval (store : Store) : Code → Option Constant
  | constant type values => some (type.literal values)
  | var v => some (store.read v 0 v.type.bits)
  | read v type index => do
    let i ← index.eval store
    some (store.read v i.value type.bits)
  | concat left right _ => do
    let l ← left.eval store
    let r ← right.eval store
    some (l.concat r)
  | select cond ifTrue ifFalse _ => do
    let c ← cond.eval store
    if c.isZero then ifFalse.eval store else ifTrue.eval store
  | cast inner type => do
    let c ← inner.eval store
    some (if inner.type.isSigned then c.signExtend type.bits else c.zeroExtend type.bits)
  | not inner type => do
    let c ← inner.eval store
    some (.ofNat (c.value ^^^ ones type.bits) type.bits)
  | binary op lhs rhs type => do
    let l ← lhs.eval store
    let r ← rhs.eval store
    op.eval lhs.type.isSigned l r type.bits

namespace Constant

@[simp] theorem reading_false (c : Constant) : c.reading false = c.value := rfl

theorem ofInt_natCast (n bits : Nat) : ofInt n bits = ofNat n bits := by
  rw [ofInt, BitVec.ofInt_natCast]
  symm
  apply ofNat_eq_ofBitVec
  rw [BitVec.toNat_ofNat]

end Constant

namespace Store

variable {store : Store} {v : Variable} {start bits : Nat}

@[simp] theorem bits_read : (store.read v start bits).bits = bits := rfl

theorem read_valid : (store.read v start bits).Valid := Constant.ofNat_valid _ _

theorem testBit_read (i : Nat) : (store.read v start bits).value.testBit i =
    (decide (i < bits) && (store v (start + i / 8)).toNat.testBit (i % 8)) := by
  rw [read, Constant.testBit_ofNat, testBit_natOfBytes]
  by_cases hi : i < bits
  · have hbyte : i / 8 < (bits + 7) / 8 := by omega
    simp [hi, hbyte]
  · simp [hi]

theorem slice_read {offset width : Nat} (ho : offset % 8 = 0) (h : offset + width ≤ bits) :
    (store.read v start bits).slice offset width = store.read v (start + offset / 8) width := by
  apply Constant.eq_of_testBit
  · rfl
  intro i
  rw [Constant.testBit_slice, testBit_read, testBit_read]
  have hdiv : start + (offset + i) / 8 = start + offset / 8 + i / 8 := by omega
  have hmod : (offset + i) % 8 = i % 8 := by omega
  by_cases hi : i < width
  · have hbits : offset + i < bits := by omega
    simp [hi, hbits, hdiv, hmod]
  · simp [hi]

theorem concat_read {low high : Nat} (hlow : low % 8 = 0) :
    (store.read v (start + low / 8) high).concat (store.read v start low) =
      store.read v start (high + low) := by
  apply Constant.eq_of_testBit
  · rfl
  intro i
  rw [Constant.testBit_concat, testBit_read, testBit_read, testBit_read, bits_read, bits_read]
  by_cases hi : i < low
  · have hall : i < high + low := by omega
    have hbelow : ¬ low ≤ i := by omega
    simp [hi, hall, hbelow]
  · have hdiv : start + low / 8 + (i - low) / 8 = start + i / 8 := by omega
    have hmod : (i - low) % 8 = i % 8 := by omega
    have hle : low ≤ i := by omega
    have hhigh : i - low < high ↔ i < high + low := by omega
    by_cases hall : i < high + low <;> simp [hi, hle, hhigh, hall, hdiv, hmod]

end Store

end BitvectorCode
