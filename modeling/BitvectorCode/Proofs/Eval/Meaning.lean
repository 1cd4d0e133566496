import BitvectorCode.Constant.Valid
import BitvectorCode.Eval.Tree
import BitvectorCode.Proofs.Graph.Unfolding
import BitvectorCode.Proofs.Outcome

/-!
# The meaning of expressions as bitvectors

The operators compute with natural numbers and one 64-bit word. Here each is compared with the
operation on bitvectors of a fixed width that it stands for, at every width. A well-sorted tree then
has the value and the failure that the operations on bitvectors give it.
-/

namespace BitvectorCode

def Constant.ofBitVec {w : Nat} (v : BitVec w) : Constant := ⟨v.toNat, w⟩

/-- Signed division and signed orderings are defined at these widths only. -/
def SignedWidth (w : Nat) : Prop := 0 < w ∧ w ≤ 64

instance (w : Nat) : Decidable (SignedWidth w) := inferInstanceAs (Decidable (_ ∧ _))

def divided {w : Nat} (divisor : BitVec w) (quotient : BitVec w) : Except Error (BitVec w) :=
  if divisor = 0#w then .error .divisionByZero else .ok quotient

def signedAt {α : Type} (w : Nat) (a : α) : Except Error α :=
  if SignedWidth w then .ok a else .error (.tooWide w)

def BinaryOp.meaning {w : Nat} (op : BinaryOp) (l r : BitVec w) : Except Error (BitVec w) :=
  match op with
  | add => .ok (l + r)
  | sub => .ok (l - r)
  | mul => .ok (l * r)
  | udiv => divided r (l / r)
  | urem => divided r (l % r)
  | sdiv => do signedAt w (← divided r (l.sdiv r))
  | srem => do signedAt w (← divided r (l.srem r))
  | and => .ok (l &&& r)
  | or => .ok (l ||| r)
  | xor => .ok (l ^^^ r)
  | shl => .ok (l <<< r)
  | lshr => .ok (l >>> r)
  | ashr => .ok (l.sshiftRight' r)

def CompareOp.meaning {w : Nat} (op : CompareOp) (l r : BitVec w) : Except Error Bool :=
  match op with
  | eq => .ok (l == r)
  | ne => .ok (l != r)
  | ult => .ok (l.ult r)
  | ule => .ok (l.ule r)
  | ugt => .ok (r.ult l)
  | uge => .ok (r.ule l)
  | slt => signedAt w (l.slt r)
  | sle => signedAt w (l.sle r)
  | sgt => signedAt w (r.slt l)
  | sge => signedAt w (r.sle l)

/-- The plain meaning of a tree, given values for some of the symbolic bytes. Operands are taken
from left to right, and of a selection only the chosen branch is. -/
def Tree.meaning (bytes : Bytes) : (t : Tree) → Except Error (BitVec t.width)
  | constant c => .ok (.ofNat c.bits c.value)
  | read root index => do
    let i ← index.meaning bytes
    match bytes.at? root (.ofBitVec i) with
    | some byte => .ok byte.toBitVec
    | none => .error (.symbolicRead root.name (.ofBitVec i))
  | concat high low => do
    let h ← high.meaning bytes
    let l ← low.meaning bytes
    .ok (h ++ l)
  | extract inner offset width => do
    let v ← inner.meaning bytes
    .ok (v.extractLsb' offset width)
  | zeroExtend inner width => do
    let v ← inner.meaning bytes
    .ok (v.setWidth width)
  | signExtend inner width => do
    let v ← inner.meaning bytes
    .ok (v.signExtend width)
  | not inner => do
    let v ← inner.meaning bytes
    .ok (~~~v)
  | binary op lhs rhs => do
    let l ← lhs.meaning bytes
    let r ← rhs.meaning bytes
    op.meaning l (r.setWidth lhs.width)
  | compare op lhs rhs => do
    let l ← lhs.meaning bytes
    let r ← rhs.meaning bytes
    let b ← op.meaning l (r.setWidth lhs.width)
    .ok (.ofBool b)
  | select cond ifTrue ifFalse => do
    let c ← cond.meaning bytes
    if c = 1#_ then ifTrue.meaning bytes
    else do
      let v ← ifFalse.meaning bytes
      .ok (v.setWidth ifTrue.width)

end BitvectorCode
