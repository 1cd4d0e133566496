import BitvectorCode.Constant.Checked
import BitvectorCode.Constant.Valid

/-!
# Bits of constants

Slices and concats of constants are compared bit by bit. A slice of a slice is a slice, and a slice
of a concat that lies in one of its parts is a slice of that part.
-/

namespace BitvectorCode

theorem testBit_ones (bits i : Nat) : (ones bits).testBit i = decide (i < bits) := by
  rw [ones_eq, Nat.testBit_two_pow_sub_one]

namespace Constant

variable {c d : Constant} {offset offset' width width' : Nat}

theorem eq_of_testBit (hbits : c.bits = d.bits) (h : ∀ i, c.value.testBit i = d.value.testBit i) :
    c = d := by
  cases c
  cases d
  simp only [mk.injEq]
  exact ⟨Nat.eq_of_testBit_eq h, hbits⟩

theorem ofNat_eq_self {value bits : Nat} (h : value < 2 ^ bits) :
    ofNat value bits = ⟨value, bits⟩ := by
  rw [ofNat, lowBits_eq_mod, Nat.mod_eq_of_lt h]

theorem word?_eq_some_iff {n : Nat} : c.word? = some n ↔ c.value < 2 ^ 64 ∧ n = c.value := by
  have hsize : UInt64.size = 2 ^ 64 := rfl
  simp [word?, hsize, eq_comm]

theorem testBit_ofNat (value bits i : Nat) :
    (ofNat value bits).value.testBit i = (decide (i < bits) && value.testBit i) := by
  rw [value_ofNat, Nat.testBit_mod_two_pow]

theorem Valid.lt_two_pow (h : c.Valid) {bits : Nat} (hle : c.bits ≤ bits) : c.value < 2 ^ bits :=
  Nat.lt_of_lt_of_le h (Nat.pow_le_pow_right (by decide) hle)

theorem Valid.testBit_eq_false (h : c.Valid) {i : Nat} (hi : c.bits ≤ i) :
    c.value.testBit i = false :=
  Nat.testBit_lt_two_pow (h.lt_two_pow hi)

@[simp] theorem bits_slice : (c.slice offset width).bits = width := rfl

@[simp] theorem bits_concat : (c.concat d).bits = c.bits + d.bits := rfl

theorem testBit_slice (i : Nat) : (c.slice offset width).value.testBit i =
    (decide (i < width) && c.value.testBit (offset + i)) := by
  rw [slice, testBit_ofNat, Nat.testBit_shiftRight]

theorem testBit_concat (i : Nat) : (c.concat d).value.testBit i =
    (decide (i < c.bits + d.bits) &&
      (decide (d.bits ≤ i) && c.value.testBit (i - d.bits) || d.value.testBit i)) := by
  rw [concat, testBit_ofNat, Nat.testBit_or, Nat.testBit_shiftLeft]

theorem value_concat (hc : c.Valid) (hd : d.Valid) :
    (c.concat d).value = c.value <<< d.bits ||| d.value := by
  have hhigh : c.value <<< d.bits < 2 ^ (c.bits + d.bits) := by
    rw [Nat.shiftLeft_eq, Nat.pow_add]
    exact Nat.mul_lt_mul_of_pos_right hc (Nat.two_pow_pos _)
  have hlow : d.value < 2 ^ (c.bits + d.bits) := hd.lt_two_pow (Nat.le_add_left _ _)
  rw [concat, ofNat_eq_self (Nat.or_lt_two_pow hhigh hlow)]

theorem zeroExtend_self (h : c.Valid) : c.zeroExtend c.bits = c := ofNat_eq_self h

theorem signExtend_self (h : c.Valid) : c.signExtend c.bits = c := by
  unfold signExtend
  rw [if_neg (by simp)]
  exact ofNat_eq_self h

theorem isNegative_eq_shiftRight (h : c.Valid) (hpos : 0 < c.bits) :
    c.isNegative = ((ofNat (c.value >>> (c.bits - 1)) c.bits).value == 1) := by
  have hpow : 2 ^ c.bits = 2 ^ (c.bits - 1) * 2 := by
    rw [← Nat.pow_succ, Nat.succ_eq_add_one, Nat.sub_add_cancel hpos]
  have hlt : c.value / 2 ^ (c.bits - 1) < 2 :=
    Nat.div_lt_of_lt_mul (Nat.lt_of_lt_of_eq h hpow)
  have hle : 2 ≤ 2 ^ c.bits := Nat.le_self_pow (Nat.ne_of_gt hpos) 2
  rw [isNegative, value_ofNat, Nat.shiftRight_eq_div_pow, Nat.testBit_eq_decide_div_mod_eq,
    Nat.mod_eq_of_lt hlt, Nat.mod_eq_of_lt (Nat.lt_of_lt_of_le hlt hle), Bool.eq_iff_iff]
  simp [hpos]

theorem eq_ofBool (hbits : c.bits = 1) (h : c.Valid) : c = ofBool (!c.isZero) := by
  have hlt : c.value < 2 := by
    rw [Valid, hbits] at h
    exact h
  obtain ⟨value, bits⟩ := c
  subst hbits
  rcases Nat.le_one_iff_eq_zero_or_eq_one.1 (Nat.le_of_lt_succ hlt) with h0 | h1
  · subst h0
    rfl
  · subst h1
    rfl

theorem slice_valid : (c.slice offset width).Valid := ofNat_valid _ _

theorem signExtend_fits {bits : Nat} : (c.signExtend bits).bits = bits ∧
    (c.signExtend bits).Valid := by
  unfold signExtend
  split <;> exact ⟨rfl, ofNat_valid _ _⟩

theorem slice_all (h : c.Valid) : c.slice 0 c.bits = c := by
  apply eq_of_testBit
  · rfl
  intro i
  rw [testBit_slice, Nat.zero_add]
  by_cases hi : i < c.bits
  · simp [hi]
  · simp [hi, h.testBit_eq_false (Nat.not_lt.1 hi)]

theorem slice_slice (h : offset' + width' ≤ width) :
    (c.slice offset width).slice offset' width' = c.slice (offset + offset') width' := by
  apply eq_of_testBit
  · rfl
  intro i
  simp only [testBit_slice, Nat.add_assoc]
  by_cases hi : i < width'
  · have : offset' + i < width := by omega
    simp [hi, this]
  · simp [hi]

theorem slice_concat_low (h : offset + width ≤ d.bits) :
    (c.concat d).slice offset width = d.slice offset width := by
  apply eq_of_testBit
  · rfl
  intro i
  simp only [testBit_slice, testBit_concat]
  by_cases hi : i < width
  · have hlow : ¬ d.bits ≤ offset + i := by omega
    have hall : offset + i < c.bits + d.bits := by omega
    simp [hi, hlow, hall]
  · simp [hi]

theorem slice_concat_high (hd : d.Valid) (hlow : d.bits ≤ offset)
    (hhigh : offset - d.bits + width ≤ c.bits) :
    (c.concat d).slice offset width = c.slice (offset - d.bits) width := by
  apply eq_of_testBit
  · rfl
  intro i
  simp only [testBit_slice, testBit_concat]
  by_cases hi : i < width
  · have hle : d.bits ≤ offset + i := by omega
    have hall : offset + i < c.bits + d.bits := by omega
    have hsub : offset + i - d.bits = offset - d.bits + i := by omega
    simp [hi, hle, hall, hsub, hd.testBit_eq_false hle]
  · simp [hi]

theorem concat_slice (h : c.Valid) {k : Nat} (hk : k ≤ c.bits) :
    (c.slice k (c.bits - k)).concat (c.slice 0 k) = c := by
  apply eq_of_testBit
  · exact Nat.sub_add_cancel hk
  intro i
  simp only [testBit_concat, testBit_slice, bits_slice, Nat.zero_add, Nat.sub_add_cancel hk]
  by_cases hi : i < c.bits
  · by_cases hlow : i < k
    · have habove : ¬ k ≤ i := by omega
      simp [hi, hlow, habove]
    · have hle : k ≤ i := Nat.not_lt.1 hlow
      have hhigh : i - k < c.bits - k := by omega
      simp [hi, hlow, hle, hhigh]
  · simp [hi, h.testBit_eq_false (Nat.not_lt.1 hi)]

theorem extract_eq_slice (h : offset + width ≤ c.bits) :
    c.extract offset width = .ok (c.slice offset width) := if_neg (Nat.not_lt.2 h)

theorem extract_concat_low (hd : d.Valid) : (c.concat d).extract 0 d.bits = .ok d := by
  rw [extract_eq_slice (by simp), slice_concat_low (by simp), slice_all hd]

theorem extract_concat_high (hc : c.Valid) (hd : d.Valid) :
    (c.concat d).extract d.bits c.bits = .ok c := by
  rw [extract_eq_slice (by simp [Nat.add_comm]), slice_concat_high hd le_rfl (by simp),
    Nat.sub_self, slice_all hc]

theorem value_zeroExtend (h : c.Valid) {bits : Nat} (hle : c.bits ≤ bits) :
    (c.zeroExtend bits).value = c.value := by
  rw [zeroExtend, value_ofNat, Nat.mod_eq_of_lt (h.lt_two_pow hle)]

end Constant

end BitvectorCode
