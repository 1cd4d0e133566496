import BitvectorCode.Proofs.Code.Simplify
import BitvectorCode.Proofs.Lowering.Cases

/-!
# Lowered operators

An operator of expressions becomes an operator of code, and a signed one has its left operand, or
both operands of a comparison, cast to a signed type. The lowered operator gives the value of the
operator wherever that has one.
-/

namespace BitvectorCode

open Constant

def BinaryOp.codeOp : BinaryOp → CodeOp
  | add => .add
  | sub => .sub
  | mul => .mul
  | udiv | sdiv => .div
  | urem | srem => .mod
  | and => .and
  | or => .or
  | xor => .xor
  | shl => .shl
  | lshr | ashr => .shr

def BinaryOp.isSigned : BinaryOp → Bool
  | sdiv | srem | ashr => true
  | _ => false

def CompareOp.codeOp : CompareOp → CodeOp
  | eq => .equals
  | ne => .notEquals
  | ult | slt => .less
  | ule | sle => .lessEq
  | ugt | sgt => .greater
  | uge | sge => .greaterEq

section Operators

variable {w : Nat} {l r v : BitVec w}

@[simp] theorem Constant.reading_ofBitVec_true (v : BitVec w) :
    (ofBitVec v).reading true = v.toInt := by
  simp [reading]

/-- Where an operator has a value, its operator of code has the same. -/
theorem BinaryOp.eval_codeOp {op : BinaryOp} (h : op.meaning l r = .ok v) :
    op.codeOp.eval op.isSigned (ofBitVec l) (ofBitVec r) w = some (ofBitVec v) := by
  have hzero : r ≠ 0#w → ¬ (ofBitVec r).isZero = true := by
    intro hr
    rw [isZero_ofBitVec]
    simpa using hr
  cases op with
  | add =>
    cases h
    exact congrArg some (ofNat_eq_ofBitVec (by simp))
  | sub =>
    cases h
    have hsub : BitVec.ofInt w (l.toNat - r.toNat : Int) = l - r := by
      apply BitVec.eq_of_toInt_eq
      rw [BitVec.toInt_ofInt, BitVec.toInt_sub, BitVec.toInt_eq_toNat_bmod l,
        BitVec.toInt_eq_toNat_bmod r, Int.sub_bmod_bmod, Int.bmod_sub_bmod]
    exact congrArg (fun v => some (ofBitVec v)) hsub
  | mul =>
    cases h
    exact congrArg some (ofNat_eq_ofBitVec (by simp))
  | and | or | xor =>
    cases h
    exact congrArg some (ofNat_eq_ofBitVec_of_testBit (by simp [BitVec.testBit_toNat]))
  | udiv =>
    obtain ⟨hr, rfl⟩ := divided_eq_ok_iff.1 h
    apply (if_neg (hzero hr)).trans
    exact congrArg some ((ofInt_natCast _ _).trans (ofNat_toNat (l / r)))
  | urem =>
    obtain ⟨hr, rfl⟩ := divided_eq_ok_iff.1 h
    apply (if_neg (hzero hr)).trans
    exact congrArg some ((ofInt_natCast _ _).trans (ofNat_toNat (l % r)))
  | sdiv =>
    obtain ⟨q, hq, hv⟩ := bind_eq_ok_iff.1 h
    obtain ⟨hr, rfl⟩ := divided_eq_ok_iff.1 hq
    obtain ⟨-, rfl⟩ := signedAt_eq_ok_iff.1 hv
    apply (if_neg (hzero hr)).trans
    simp only [isSigned, reading_ofBitVec_true, ofInt]
    congr 2
    apply BitVec.toInt_inj.1
    rw [BitVec.toInt_ofInt, BitVec.toInt_sdiv]
  | srem =>
    obtain ⟨q, hq, hv⟩ := bind_eq_ok_iff.1 h
    obtain ⟨hr, rfl⟩ := divided_eq_ok_iff.1 hq
    obtain ⟨-, rfl⟩ := signedAt_eq_ok_iff.1 hv
    apply (if_neg (hzero hr)).trans
    simp only [isSigned, reading_ofBitVec_true, ofInt]
    rw [← BitVec.toInt_srem, BitVec.ofInt_toInt]
  | shl =>
    cases h
    exact congrArg some (ofNat_eq_ofBitVec (by simp))
  | lshr =>
    cases h
    exact congrArg some ((ofInt_natCast _ _).trans (ofNat_toNat (l >>> r)))
  | ashr =>
    cases h
    simp only [codeOp, CodeOp.eval, isSigned, reading_ofBitVec_true]
    rfl

theorem CompareOp.eval_codeOp {op : CompareOp} {b : Bool} (h : op.meaning l r = .ok b) :
    op.codeOp.eval op.isSigned (ofBitVec l) (ofBitVec r) 1 = some (ofBool b) := by
  cases op with
  | eq | ne =>
    cases h
    have hbeq : (l.toNat == r.toNat) = (l == r) := by
      rw [Bool.eq_iff_iff]
      simp [BitVec.toNat_inj]
    simp [codeOp, CodeOp.eval, ofBool, bne, hbeq]
  | ult | ule | ugt | uge =>
    cases h
    simp [codeOp, CodeOp.eval, isSigned, ofBool, BitVec.ult, BitVec.ule]
  | slt | sle | sgt | sge =>
    obtain ⟨-, rfl⟩ := signedAt_eq_ok_iff.1 h
    simp only [codeOp, CodeOp.eval, isSigned, reading_ofBitVec_true]
    rfl

end Operators

namespace Environment

variable {env : Environment} {store : Store} {lhs rhs code left : Code} {w : Nat}
variable {lows lows' lows'' : Nat → Prop} {askedLeft askedRight : Constant → Prop}

theorem operand_spec {signed : Bool} (hok : lhs.Ok lows store)
    (h : (if signed then asSigned lhs else .ok lhs) = .ok left) :
    left.type.isSigned = signed ∧ ∀ c, lhs.eval store = some c → left.eval store = some c := by
  rcases operand_eq_ok h with ⟨rfl, rfl⟩ | ⟨rfl, bits, sign, hlhs, rfl⟩
  · exact ⟨hok.plain.isSigned_eq, fun c hc => hc⟩
  · refine ⟨rfl, fun c hc => ?_⟩
    obtain ⟨hbits, hvalid⟩ := hok.eval_fits hc
    have hsame : c.bits = bits := by rw [hbits, Code.bits, hlhs]; rfl
    have hvalue : c.zeroExtend bits = c := hsame ▸ Constant.zeroExtend_self hvalid
    simp only [Code.eval, hc, hok.plain.isSigned_eq]
    exact congrArg some hvalue

theorem lowerBinary_eq_ok {op : BinaryOp} (h : env.lowerBinary op lhs rhs w = .ok code) :
    ∃ type left, env.types.typeFor w = .ok type ∧
      (if op.isSigned then asSigned lhs else .ok lhs) = .ok left ∧
      code = .binary op.codeOp left rhs type := by
  obtain ⟨type, htype, h⟩ := bind_eq_ok_iff.1 h
  cases op with
  | sdiv | srem | ashr =>
    obtain ⟨left, hleft, h⟩ := bind_eq_ok_iff.1 h
    cases h
    exact ⟨type, left, htype, hleft, rfl⟩
  | _ =>
    cases h
    exact ⟨type, lhs, htype, rfl, rfl⟩

theorem lowerCompare_eq_ok {op : CompareOp} (h : env.lowerCompare op lhs rhs = .ok code) :
    ∃ type left right, env.types.typeFor 1 = .ok type ∧
      (if op.isSigned then asSigned lhs else .ok lhs) = .ok left ∧
      (if op.isSigned then asSigned rhs else .ok rhs) = .ok right ∧
      code = .binary op.codeOp left right type := by
  obtain ⟨type, htype, h⟩ := bind_eq_ok_iff.1 h
  cases op with
  | slt | sle | sgt | sge =>
    obtain ⟨left, hleft, h⟩ := bind_eq_ok_iff.1 h
    obtain ⟨right, hright, h⟩ := bind_eq_ok_iff.1 h
    cases h
    exact ⟨type, left, right, htype, hleft, hright, rfl⟩
  | _ =>
    cases h
    exact ⟨type, lhs, rhs, htype, rfl, rfl, rfl⟩

theorem lowerBinary_gives (hd : env.types.overrides = ∅) {op : BinaryOp}
    (hl : lhs.Gives lows store w askedLeft) (hr : rhs.Gives lows' store w askedRight)
    (h : env.lowerBinary op lhs rhs w = .ok code) :
    code.Gives lows'' store w fun c => ∃ l r, askedLeft l ∧ askedRight r ∧
      op.eval l r w = .ok c := by
  obtain ⟨type, left, htype, hleft, rfl⟩ := lowerBinary_eq_ok h
  obtain ⟨hplain, hbits⟩ := TypeContext.typeFor_plain hd htype
  obtain ⟨hsigned, hvalue⟩ := operand_spec hl.ok hleft
  refine ⟨hplain, hbits, ?_⟩
  intro c hc
  rcases hc with ⟨l, r, hlv, hrv, hc⟩
  obtain ⟨lv, rfl⟩ := Constant.exists_ofBitVec (hl.fits hlv)
  obtain ⟨rv, rfl⟩ := Constant.exists_ofBitVec (hr.fits hrv)
  obtain ⟨v, hm, rfl⟩ := BinaryOp.eval_eq_ok_iff.1 hc
  simp only [Code.eval, hvalue _ (hl.eval_eq _ hlv), hr.eval_eq _ hrv, hsigned, hbits]
  exact BinaryOp.eval_codeOp hm

/-- A lowered comparison gives the answer of the comparison. -/
theorem lowerCompare_gives (hd : env.types.overrides = ∅) {op : CompareOp}
    (hl : lhs.Gives lows store w askedLeft) (hr : rhs.Gives lows' store w askedRight)
    (h : env.lowerCompare op lhs rhs = .ok code) :
    code.Gives lows'' store 1 fun c => ∃ l r, askedLeft l ∧ askedRight r ∧ op.eval l r = .ok c := by
  obtain ⟨type, left, right, htype, hleft, hright, rfl⟩ := lowerCompare_eq_ok h
  obtain ⟨hplain, hbits⟩ := TypeContext.typeFor_plain hd htype
  obtain ⟨hsigned, hvalue⟩ := operand_spec hl.ok hleft
  have hvalue' := (operand_spec hr.ok hright).2
  refine ⟨hplain, hbits, ?_⟩
  intro c hc
  rcases hc with ⟨l, r, hlv, hrv, hc⟩
  obtain ⟨lv, rfl⟩ := Constant.exists_ofBitVec (hl.fits hlv)
  obtain ⟨rv, rfl⟩ := Constant.exists_ofBitVec (hr.fits hrv)
  obtain ⟨b, hm, rfl⟩ := CompareOp.eval_eq_ok_iff.1 hc
  simp only [Code.eval, hvalue _ (hl.eval_eq _ hlv), hvalue' _ (hr.eval_eq _ hrv), hsigned, hbits]
  exact CompareOp.eval_codeOp hm

end Environment

end BitvectorCode
