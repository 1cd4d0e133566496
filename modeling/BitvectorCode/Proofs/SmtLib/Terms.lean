import BitvectorCode.Proofs.Eval.Evaluation
import BitvectorCode.Proofs.SmtLib.Semantics
import BitvectorCode.SmtLib.Declaration
import Std.Data.String.ToNat

/-!
# The meaning of rendered terms

A rendered term has the value that its parts give it. The logic gives every operator a value for
every divisor and at every width, and it is the value of the operator wherever that has one. So the
body of the definition of a node has the value of the node, if the symbols in it have the values of
its children.
-/

namespace BitvectorCode

section Operators

variable {w : Nat} {l r : BitVec w}

/-- What the logic takes an operator to be. -/
def BinaryOp.total (op : BinaryOp) (l r : BitVec w) : BitVec w :=
  match op with
  | add => l + r
  | sub => l - r
  | mul => l * r
  | udiv => l.smtUDiv r
  | sdiv => l.smtSDiv r
  | urem => l % r
  | srem => l.srem r
  | and => l &&& r
  | or => l ||| r
  | xor => l ^^^ r
  | shl => l <<< r
  | lshr => l >>> r
  | ashr => l.sshiftRight' r

def CompareOp.total (op : CompareOp) (l r : BitVec w) : Bool :=
  match op with
  | eq => l == r
  | ne => l != r
  | ult => l.ult r
  | ule => l.ule r
  | ugt => r.ult l
  | uge => r.ule l
  | slt => l.slt r
  | sle => l.sle r
  | sgt => r.slt l
  | sge => r.sle l

theorem smtSDiv_of_ne_zero (hr : r ≠ 0#w) : l.smtSDiv r = l.sdiv r := by
  have hneg : -r ≠ 0#w := by simpa using hr
  rw [BitVec.smtSDiv_eq, BitVec.sdiv_eq]
  simp only [BitVec.smtUDiv_eq, if_neg hr, if_neg hneg, BitVec.udiv_eq]

theorem BinaryOp.total_eq {op : BinaryOp} {v : BitVec w} (h : op.meaning l r = .ok v) :
    op.total l r = v := by
  cases op with
  | udiv =>
    obtain ⟨hr, rfl⟩ := divided_eq_ok_iff.1 h
    exact (BitVec.smtUDiv_eq l r).trans (if_neg hr)
  | urem => exact (divided_eq_ok_iff.1 h).2
  | sdiv =>
    obtain ⟨q, hq, h⟩ := bind_eq_ok_iff.1 h
    obtain ⟨hr, rfl⟩ := divided_eq_ok_iff.1 hq
    obtain ⟨-, rfl⟩ := signedAt_eq_ok_iff.1 h
    exact smtSDiv_of_ne_zero hr
  | srem =>
    obtain ⟨q, hq, h⟩ := bind_eq_ok_iff.1 h
    obtain ⟨-, rfl⟩ := divided_eq_ok_iff.1 hq
    exact (signedAt_eq_ok_iff.1 h).2
  | _ => exact Except.ok.inj h

theorem CompareOp.total_eq {op : CompareOp} {b : Bool} (h : op.meaning l r = .ok b) :
    op.total l r = b := by
  cases op with
  | slt | sle | sgt | sge => exact (signedAt_eq_ok_iff.1 h).2
  | _ => exact Except.ok.inj h

end Operators

namespace SmtLib

theorem numeral?_repr (n : Nat) : numeral? n.repr = some n := by
  have h : n.repr.toNat? = some n := Nat.toNat?_repr n
  simp [numeral?, h]

attribute [local simp] SExpr.value SExpr.values SExpr.applied? Value.toBits?
    Term.toSExpr numeral?_repr

theorem toList_nodeName (e : NodeId) : (nodeName e).toList = 'e' :: e.repr.toList := by
  simp [nodeName, toString]

namespace SExpr

theorem symbol?_nodeName (e : NodeId) : (word (nodeName e)).symbol? = some (nodeName e) := by
  simp [symbol?, toList_nodeName]

theorem binary?_nodeName (e : NodeId) : binary? (nodeName e) = none := by
  simp [binary?, toList_nodeName]

variable {w : Nat}

theorem applied?_operatorName (op : BinaryOp) (l r : BitVec w) :
    applied? (word (operatorName op)) [.bits l, .bits r] = some (.bits (op.total l r)) := by
  cases op <;> simp [operatorName, function?, BinaryOp.total]

theorem applied?_relationName (op : CompareOp) (l r : BitVec w) :
    applied? (word (relationName op)) [.bits l, .bits r] = some (.truth (op.total l r)) := by
  cases op <;> simp [relationName, function?, relation?, CompareOp.total]

theorem isSortOf_bitVecSort {v : BitVec w} (hw : 0 < w) : (bitVecSort w).isSortOf
    (.bits v) = true := by
  simp [bitVecSort, isSortOf, bitVecWidth?, hw]

end SExpr

namespace Term

open SExpr

variable {scope : Scope} {w n : Nat} {s t : Term}

def value (scope : Scope) (t : Term) : Option Value := t.toSExpr.value scope

theorem value_definition (e : NodeId) : (definition e).value scope = scope (nodeName e) := by
  rw [value, toSExpr, SExpr.value, binary?_nodeName, symbol?_nodeName]
  rfl

theorem value_literal {k : Nat} (hw : 0 < w) (hk : k < 2 ^ w) :
    (literal k w).value scope = some (.bits (BitVec.ofNat w k)) := by
  have hnumeral : numeral? (decimal k) = some k := by
    rw [decimal_eq_toString]
    exact numeral?_repr k
  have htext : ("bv" ++ decimal k).toList = 'b' :: 'v' :: (decimal k).toList := by simp
  simp [value, bitVecLiteral?, htext, hnumeral, hw, hk]

theorem value_bit (b : Bool) : (bit b).value scope = some (.bits (BitVec.ofBool b)) := by
  cases b <;> simp [value, binary?]

theorem value_select {array : String} {a : BitVec 32 → BitVec 8} {i : BitVec 32}
    (ha : scope array = some (.array a)) (hi : t.value scope = some (.bits i)) :
    (select array t).value scope = some (.bits (a i)) := by
  rw [value] at hi
  simp [value, ha, hi]

theorem value_zeroExtend {v : BitVec w} (ht : t.value scope = some (.bits v)) (extra : Nat) :
    (zeroExtend extra t).value scope = some (.bits (v.setWidth (w + extra))) := by
  rw [value] at ht
  simp [value, ht]

theorem value_signExtend {v : BitVec w} (ht : t.value scope = some (.bits v)) (extra : Nat) :
    (signExtend extra t).value scope = some (.bits (v.signExtend (w + extra))) := by
  rw [value] at ht
  simp [value, ht]

theorem value_extract {v : BitVec w} (ht : t.value scope = some (.bits v)) {high low : Nat}
    (hlow : low ≤ high) (hhigh : high < w) :
    (extract high low t).value scope = some (.bits (v.extractLsb' low (high - low + 1))) := by
  rw [value] at ht
  simp [value, ht, hlow, hhigh, BitVec.extractLsb]

theorem value_concat {h : BitVec w} {l : BitVec n} (hs : s.value scope = some (.bits h))
    (ht : t.value scope = some (.bits l)) :
    (concat s t).value scope = some (.bits (h ++ l)) := by
  rw [value] at hs ht
  simp [value, hs, ht]

theorem value_not {v : BitVec w} (ht : t.value scope = some (.bits v)) :
    (not t).value scope = some (.bits (~~~v)) := by
  rw [value] at ht
  simp [value, ht]

theorem value_binary {l r : BitVec w} (hs : s.value scope = some (.bits l))
    (ht : t.value scope = some (.bits r)) (op : BinaryOp) :
    (binary op s t).value scope = some (.bits (op.total l r)) := by
  have hhead : operatorName op ≠ "_" := by cases op <;> simp [operatorName]
  rw [value] at hs ht
  rw [value, toSExpr, SExpr.value]
  · simp [-applied?, hs, ht, applied?_operatorName]
  · exact fun h => hhead (SExpr.word.inj h)

theorem value_relation {l r : BitVec w} (hs : s.value scope = some (.bits l))
    (ht : t.value scope = some (.bits r)) (op : CompareOp) :
    (SExpr.list [.word (relationName op), s.toSExpr, t.toSExpr]).value scope =
      some (.truth (op.total l r)) := by
  have hhead : relationName op ≠ "_" := by cases op <;> simp [relationName]
  rw [value] at hs ht
  rw [SExpr.value]
  · simp [-applied?, hs, ht, applied?_relationName]
  · exact fun h => hhead (SExpr.word.inj h)

theorem value_ite {l r : BitVec w} {x y : BitVec n} {u v : Term}
    (hs : s.value scope = some (.bits l)) (ht : t.value scope = some (.bits r))
    (hu : u.value scope = some (.bits x)) (hv : v.value scope = some (.bits y)) (op : CompareOp) :
    (ite op s t u v).value scope = some (.bits (if op.total l r then x else y)) := by
  rw [value] at hu hv
  have hcond := value_relation hs ht op
  rw [value, toSExpr, SExpr.value]
  · simp [-SExpr.value, hcond, hu, hv]
  · simp

end Term

end SmtLib

end BitvectorCode
