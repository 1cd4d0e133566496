import BitvectorCode.Proofs.Constant.Bits
import BitvectorCode.Proofs.Eval.Meaning

/-!
# Operators on constants and on bitvectors

A constant that fits is a bitvector of its width. Every operation on constants gives the constant of
what the operation on bitvectors gives. Where a result is put together from masks and shifts, the
two are compared bit by bit; where it passes through a 64-bit word, as integers.
-/

namespace BitvectorCode

namespace Constant

variable {w n : Nat}

@[simp] theorem bits_ofBitVec (v : BitVec w) : (ofBitVec v).bits = w := rfl

@[simp] theorem value_ofBitVec (v : BitVec w) : (ofBitVec v).value = v.toNat := rfl

theorem ofBitVec_valid (v : BitVec w) : (ofBitVec v).Valid := v.isLt

theorem ofNat_eq_ofBitVec {value : Nat} {v : BitVec w} (h : value % 2 ^ w = v.toNat) :
    ofNat value w = ofBitVec v := by
  simp [ofNat, ofBitVec, lowBits_eq_mod, h]

theorem ofNat_eq_ofBitVec_of_testBit {value : Nat} {v : BitVec w}
    (h : ∀ i < w, value.testBit i = v.getLsbD i) : ofNat value w = ofBitVec v := by
  apply ofNat_eq_ofBitVec
  apply Nat.eq_of_testBit_eq
  intro i
  rw [Nat.testBit_mod_two_pow, BitVec.testBit_toNat]
  by_cases hi : i < w
  · simp [hi, h i hi]
  · simp [hi, BitVec.getLsbD_of_ge v i (Nat.not_lt.1 hi)]

theorem ofNat_toNat (v : BitVec w) : ofNat v.toNat w = ofBitVec v :=
  ofNat_eq_ofBitVec (Nat.mod_eq_of_lt v.isLt)

theorem eq_ofBitVec {c : Constant} (h : c.Valid) : c = ofBitVec (BitVec.ofNat c.bits c.value) := by
  have : c.value % 2 ^ c.bits = c.value := Nat.mod_eq_of_lt h
  cases c
  simp_all [ofBitVec]

theorem exists_ofBitVec {c : Constant} (h : c.bits = w ∧ c.Valid) :
    ∃ v : BitVec w, c = ofBitVec v := by
  obtain ⟨rfl, hvalid⟩ := h
  exact ⟨_, eq_ofBitVec hvalid⟩

theorem ofBitVec_setWidth {v : BitVec w} (h : w = n) : ofBitVec (v.setWidth n) = ofBitVec v := by
  subst h
  rw [BitVec.setWidth_eq]

theorem isNegative_ofBitVec (v : BitVec w) : (ofBitVec v).isNegative = v.msb := by
  cases w with
  | zero => simp [isNegative, BitVec.of_length_zero]
  | succ w => simp [isNegative, BitVec.msb_eq_getLsbD_last, BitVec.testBit_toNat]

theorem toInt?_ofBitVec (v : BitVec w) :
    (ofBitVec v).toInt? = if SignedWidth w then some v.toInt else none := by
  unfold toInt?
  by_cases hw : SignedWidth w
  · have hv : v.toNat < 2 ^ 64 := Nat.lt_of_lt_of_le v.isLt (Nat.pow_le_pow_right (by decide) hw.2)
    have hfits : ¬ ((ofBitVec v).bits = 0 ∨ 64 < (ofBitVec v).bits ∨
        UInt64.size ≤ (ofBitVec v).value) := by
      have := hw.1
      have := hw.2
      simp only [bits_ofBitVec, value_ofBitVec, UInt64.size]
      omega
    have hword : BitVec.ofNat 64 (if v.msb then v.toNat ||| (ones 64 ^^^ ones w) else v.toNat) =
        v.signExtend 64 := by
      apply BitVec.eq_of_getLsbD_eq
      intro i hi
      rw [BitVec.getLsbD_ofNat, BitVec.getLsbD_signExtend]
      cases hm : v.msb <;> by_cases hiw : i < w <;>
        simp [hi, hiw, testBit_ones, BitVec.testBit_toNat, BitVec.getLsbD_of_ge, Nat.not_lt.1]
    rw [if_neg hfits, if_pos hw]
    simp only [bits_ofBitVec, value_ofBitVec, isNegative_ofBitVec]
    rw [hword, BitVec.toInt_signExtend_of_le hw.2]
  · have hwide : (ofBitVec v).bits = 0 ∨ 64 < (ofBitVec v).bits ∨
        UInt64.size ≤ (ofBitVec v).value := by
      simp only [SignedWidth] at hw
      simp only [bits_ofBitVec]
      omega
    rw [if_pos hwide, if_neg hw]

theorem toInt_ofBitVec (v : BitVec w) : (ofBitVec v).toInt = signedAt w v.toInt := by
  unfold toInt signedAt
  rw [toInt?_ofBitVec]
  split <;> simp_all

theorem concat_ofBitVec (h : BitVec w) (l : BitVec n) :
    (ofBitVec h).concat (ofBitVec l) = ofBitVec (h ++ l) := by
  have hlt := BitVec.toNat_shiftLeft_or_toNat_lt_two_pow_add h l
  exact ofNat_eq_ofBitVec ((Nat.mod_eq_of_lt hlt).trans (BitVec.toNat_append h l).symm)

theorem slice_ofBitVec (v : BitVec w) (offset : Nat) :
    (ofBitVec v).slice offset n = ofBitVec (v.extractLsb' offset n) :=
  ofNat_eq_ofBitVec (by simp [BitVec.extractLsb'_toNat])

theorem extract_ofBitVec (v : BitVec w) {offset : Nat} (h : offset + n ≤ w) :
    (ofBitVec v).extract offset n = .ok (ofBitVec (v.extractLsb' offset n)) := by
  rw [extract, if_neg (by simpa using h), slice_ofBitVec]

theorem zeroExtend_ofBitVec (v : BitVec w) : (ofBitVec v).zeroExtend n = ofBitVec (v.setWidth n) :=
  ofNat_eq_ofBitVec (by simp [BitVec.toNat_setWidth])

theorem signExtend_ofBitVec (v : BitVec w) : (ofBitVec v).signExtend n = ofBitVec
    (v.signExtend n) := by
  unfold signExtend
  rw [isNegative_ofBitVec]
  split
  · next h =>
    apply ofNat_eq_ofBitVec_of_testBit
    intro i hi
    rw [BitVec.getLsbD_signExtend]
    by_cases hiw : i < w <;>
      simp_all [testBit_ones, BitVec.testBit_toNat, BitVec.getLsbD_of_ge, Nat.not_lt.1]
  · next h =>
    apply ofNat_eq_ofBitVec_of_testBit
    intro i hi
    rw [BitVec.getLsbD_signExtend]
    by_cases hiw : i < w
    · simp [hi, hiw, BitVec.testBit_toNat]
    · have hm : v.msb = false := by
        by_contra hc
        have hwn : w < n := by omega
        exact h (by simpa [hwn] using hc)
      simp [hi, hiw, hm, BitVec.testBit_toNat, BitVec.getLsbD_of_ge, Nat.not_lt.1]

theorem complement_ofBitVec (v : BitVec w) : ofNat (v.toNat ^^^ ones w) w = ofBitVec (~~~v) := by
  apply ofNat_eq_ofBitVec_of_testBit
  intro i hi
  simp [testBit_ones, BitVec.testBit_toNat, hi]

theorem ofBool_eq_ofBitVec (b : Bool) : ofBool b = ofBitVec (BitVec.ofBool b) := by
  cases b <;> rfl

end Constant

section Operators

open Constant

variable {w : Nat}

theorem divided_eq_ok_iff {r q v : BitVec w} : divided r q = .ok v ↔ r ≠ 0#w ∧ q = v := by
  unfold divided
  by_cases hr : r = 0#w <;> simp [hr]

theorem signedAt_eq_ok_iff {α : Type} {a b : α} : signedAt w a = .ok b ↔ SignedWidth w ∧ a = b := by
  unfold signedAt
  by_cases hw : SignedWidth w <;> simp [hw]

theorem isZero_ofBitVec (v : BitVec w) : (ofBitVec v).isZero = (v == 0#w) := by
  rw [Bool.eq_iff_iff]
  simp [isZero, ← BitVec.toNat_inj]

theorem unsignedDivision_ofBitVec {f : Nat → Nat → Nat} {l r q : BitVec w}
    (hq : q.toNat = f l.toNat r.toNat) :
    unsignedDivision f (ofBitVec l) (ofBitVec r) w = (divided r q).map ofBitVec := by
  unfold unsignedDivision divided
  rw [isZero_ofBitVec]
  by_cases hr : r = 0#w
  · simp [hr, Except.map]
  · have hlt : f l.toNat r.toNat % 2 ^ w = q.toNat := by rw [← hq]; exact Nat.mod_eq_of_lt q.isLt
    simp [hr, Except.map, ofNat_eq_ofBitVec hlt]

/-- Passing through one 64-bit word loses nothing of a result that is not wider. -/
theorem ofNat_wordOfInt {i : Int} (hw : SignedWidth w) :
    ofNat (wordOfInt i) w = ofBitVec (BitVec.ofInt w i) := by
  apply ofNat_eq_ofBitVec
  have hdvd : ((2 ^ w : Nat) : Int) ∣ ((2 ^ 64 : Nat) : Int) :=
    Int.natCast_dvd_natCast.2 (Nat.pow_dvd_pow 2 hw.2)
  rw [wordOfInt, BitVec.toNat_ofInt, BitVec.toNat_ofInt]
  have hpos : (0 : Int) ≤ i % ((2 ^ 64 : Nat) : Int) := Int.emod_nonneg _ (by decide)
  apply Int.ofNat_inj.1
  have hpos' : (0 : Int) ≤ i % ((2 ^ w : Nat) : Int) :=
    Int.emod_nonneg _ (by have := Nat.two_pow_pos w; omega)
  rw [Int.natCast_emod, Int.toNat_of_nonneg hpos, Int.toNat_of_nonneg hpos',
    Int.emod_emod_of_dvd _ hdvd]

theorem signedDivision_ofBitVec {f : Int → Int → Int} {l r q : BitVec w}
    (hq : BitVec.ofInt w (f l.toInt r.toInt) = q) :
    signedDivision f (ofBitVec l) (ofBitVec r) w =
      (do signedAt w (← divided r q)).map ofBitVec := by
  unfold signedDivision divided signedAt
  rw [isZero_ofBitVec, toInt_ofBitVec, toInt_ofBitVec]
  by_cases hr : r = 0#w
  · simp [hr, Except.map, bind, Except.bind, throw, throwThe, MonadExceptOf.throw]
  · by_cases hw : SignedWidth w
    · simp [hr, hw, signedAt, Except.map, bind, Except.bind, pure, Except.pure,
        ofNat_wordOfInt hw, hq]
    · simp [hr, hw, signedAt, Except.map, bind, Except.bind]

theorem shift?_ofBitVec (r : BitVec w) :
    (ofBitVec r).shift? w = if r.toNat < w then some r.toNat else none := rfl

theorem shiftLeft_ofBitVec (l r : BitVec w) :
    ((ofBitVec r).shift? w).elim (ofNat 0 w) (fun k => ofNat (l.toNat <<< k) w) =
      ofBitVec (l <<< r) := by
  rw [shift?_ofBitVec]
  split
  · exact ofNat_eq_ofBitVec (by simp)
  · next h => exact ofNat_eq_ofBitVec (by simp [BitVec.shiftLeft_eq_zero (Nat.not_lt.1 h)])

theorem shiftRight_ofBitVec (l r : BitVec w) :
    shiftRightFilling l.toNat 0 ((ofBitVec r).shift? w) w = ofBitVec (l >>> r) := by
  rw [shift?_ofBitVec]
  split
  · apply ofNat_eq_ofBitVec_of_testBit
    intro i hi
    simp [BitVec.testBit_toNat]
  · next h =>
    apply ofNat_eq_ofBitVec_of_testBit
    intro i hi
    have : w ≤ r.toNat + i := by omega
    simp [BitVec.getLsbD_of_ge _ _ this]

theorem shiftRightSigned_ofBitVec (l r : BitVec w) :
    shiftRightFilling l.toNat (if (ofBitVec l).isNegative then ones w else 0)
      ((ofBitVec r).shift? w) w = ofBitVec (l.sshiftRight' r) := by
  rw [shift?_ofBitVec, isNegative_ofBitVec]
  by_cases hs : r.toNat < w
  · rw [if_pos hs]
    apply ofNat_eq_ofBitVec_of_testBit
    intro i hi
    rw [BitVec.getLsbD_sshiftRight']
    cases hm : l.msb <;> by_cases hk : r.toNat + i < w <;>
      simp [hi, hk, testBit_ones, BitVec.testBit_toNat, BitVec.getLsbD_of_ge, Nat.not_lt.1]
  · rw [if_neg hs]
    apply ofNat_eq_ofBitVec_of_testBit
    intro i hi
    have hk : ¬ r.toNat + i < w := by omega
    rw [BitVec.getLsbD_sshiftRight']
    cases hm : l.msb <;> simp [hi, hk, testBit_ones]

theorem BinaryOp.eval_ofBitVec (op : BinaryOp) (l r : BitVec w) :
    op.eval (ofBitVec l) (ofBitVec r) w = (op.meaning l r).map ofBitVec := by
  cases op with
  | add => exact congrArg _ (ofNat_eq_ofBitVec (by simp))
  | sub =>
    refine congrArg _ (ofNat_eq_ofBitVec ?_)
    have := r.isLt
    simp only [value_ofBitVec, Nat.one_shiftLeft, BitVec.toNat_sub]
    congr 1
    omega
  | mul => exact congrArg _ (ofNat_eq_ofBitVec (by simp))
  | udiv => exact unsignedDivision_ofBitVec BitVec.toNat_udiv
  | urem => exact unsignedDivision_ofBitVec BitVec.toNat_umod
  | sdiv =>
    refine signedDivision_ofBitVec (BitVec.toInt_inj.1 ?_)
    rw [BitVec.toInt_ofInt, BitVec.toInt_sdiv]
  | srem =>
    refine signedDivision_ofBitVec ?_
    rw [← BitVec.toInt_srem, BitVec.ofInt_toInt]
  | and => exact congrArg _ (ofNat_eq_ofBitVec_of_testBit (by simp [BitVec.testBit_toNat]))
  | or => exact congrArg _ (ofNat_eq_ofBitVec_of_testBit (by simp [BitVec.testBit_toNat]))
  | xor => exact congrArg _ (ofNat_eq_ofBitVec_of_testBit (by simp [BitVec.testBit_toNat]))
  | shl => exact congrArg _ (shiftLeft_ofBitVec l r)
  | lshr => exact congrArg _ (shiftRight_ofBitVec l r)
  | ashr => exact congrArg _ (shiftRightSigned_ofBitVec l r)

theorem BinaryOp.eval_eq_ok_iff {op : BinaryOp} {l r : BitVec w} {c : Constant} :
    op.eval (ofBitVec l) (ofBitVec r) w = .ok c ↔ ∃ v, op.meaning l r = .ok v ∧ ofBitVec v = c := by
  rw [op.eval_ofBitVec]
  cases op.meaning l r <;> simp [Except.map]

theorem signedComparison_ofBitVec {f : Int → Int → Bool} (l r : BitVec w) :
    signedComparison f (ofBitVec l) (ofBitVec r) =
      (signedAt w (f l.toInt r.toInt)).map ofBool := by
  unfold signedComparison
  rw [toInt_ofBitVec, toInt_ofBitVec]
  unfold signedAt
  split <;> rfl

theorem CompareOp.eval_ofBitVec (op : CompareOp) (l r : BitVec w) :
    op.eval (ofBitVec l) (ofBitVec r) = (op.meaning l r).map ofBool := by
  cases op with
  | eq => exact congrArg _ (congrArg ofBool (by rw [Bool.eq_iff_iff]; simp [BitVec.toNat_inj]))
  | ne => exact congrArg _ (congrArg ofBool (by rw [Bool.eq_iff_iff]; simp [BitVec.toNat_inj]))
  | ult | ule | ugt | uge => rfl
  | slt => exact signedComparison_ofBitVec l r
  | sle => exact signedComparison_ofBitVec l r
  | sgt => exact signedComparison_ofBitVec l r
  | sge => exact signedComparison_ofBitVec l r

theorem CompareOp.eval_eq_ok_iff {op : CompareOp} {l r : BitVec w} {c : Constant} :
    op.eval (ofBitVec l) (ofBitVec r) = .ok c ↔ ∃ b, op.meaning l r = .ok b ∧ ofBool b = c := by
  rw [op.eval_ofBitVec]
  cases op.meaning l r <;> simp [Except.map]

end Operators

end BitvectorCode
