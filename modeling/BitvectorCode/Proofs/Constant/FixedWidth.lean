import BitvectorCode.Proofs.Constant.Bytes
import BitvectorCode.Proofs.Eval.Operator
import Mathlib.Data.Int.ModEq

/-!
# Constants as numbers of a fixed width

The constants that the constructors and the operations make are those whose values fit their widths.
Such a constant is made up again from its parts and from its bytes. Its signed reading, at a width
that a 64-bit word holds, is the one integer in the range of the width that agrees with the value
modulo a power of two.
-/

namespace BitvectorCode.Constant

variable {c d : Constant} {i j : Int} {bits : Nat}

/-- The constants that there are: the constructors make them, and the operations make them of
others. A word can hold all widths and ends of parts. -/
inductive Made : Constant → Prop
  | ofNat (value : Nat) {bits : Nat} (fits : bits < UInt64.size) : Made (.ofNat value bits)
  | ofBytes (bytes : List UInt8) (fits : 8 * bytes.length < UInt64.size) : Made (.ofBytes bytes)
  | extract {c part : Constant} {offset width : Nat} (made : Made c)
      (fits : offset + width < UInt64.size) (cut : c.extract offset width = .ok part) : Made part
  | concat {high low : Constant} (madeHigh : Made high) (madeLow : Made low)
      (fits : high.bits + low.bits < UInt64.size) : Made (high.concat low)
  | zeroExtend {c : Constant} (made : Made c) {bits : Nat} (fits : bits < UInt64.size) :
      Made (c.zeroExtend bits)
  | signExtend {c : Constant} (made : Made c) {bits : Nat} (fits : bits < UInt64.size) :
      Made (c.signExtend bits)

theorem extract_fits {offset width : Nat} (h : c.extract offset width = .ok d) :
    d.bits = width ∧ d.Valid := by
  unfold extract at h
  split at h
  · cases h
  · cases h
    exact ⟨rfl, slice_valid⟩

theorem Made.valid (h : c.Made) : c.Valid := by
  cases h with
  | ofNat | ofBytes | concat | zeroExtend => exact ofNat_valid _ _
  | extract _ _ cut => exact (extract_fits cut).2
  | signExtend => exact signExtend_fits.2

theorem Made.bits_lt (h : c.Made) : c.bits < UInt64.size := by
  cases h with
  | ofNat _ fits | ofBytes _ fits | concat _ _ fits | zeroExtend _ fits => exact fits
  | extract _ fits cut =>
    exact (extract_fits cut).1 ▸ (Nat.le_add_left _ _).trans_lt fits
  | signExtend _ fits => exact signExtend_fits.1.trans_lt fits

/-- The made constants are those that fit. -/
theorem made_iff : c.Made ↔ c.Valid ∧ c.bits < UInt64.size := by
  refine ⟨fun h => ⟨h.valid, h.bits_lt⟩, fun ⟨valid, fits⟩ => ?_⟩
  have made := Made.ofNat c.value fits
  rwa [ofNat_eq_self valid] at made

/-- The integer `i` lies in the range of two's complement numbers of the width of `c`, and agrees
with its value modulo the power of two of the width. -/
structure TwosComplement (c : Constant) (i : Int) : Prop where
  lower : -2 ^ (c.bits - 1) ≤ i
  upper : i < 2 ^ (c.bits - 1)
  congruent : i ≡ c.value [ZMOD 2 ^ c.bits]

theorem TwosComplement.unique (hi : c.TwosComplement i) (hj : c.TwosComplement j)
    (hpos : 0 < c.bits) : i = j := by
  have hpow : (2 : Int) ^ c.bits = 2 ^ (c.bits - 1) * 2 := by
    rw [← pow_succ, Nat.sub_add_cancel hpos]
  have hdvd : (2 : Int) ^ c.bits ∣ i - j := (hj.congruent.trans hi.congruent.symm).dvd
  have hlt : |i - j| < 2 ^ c.bits := by
    have := hi.lower
    have := hi.upper
    have := hj.lower
    have := hj.upper
    rw [abs_lt]
    constructor <;> lia
  exact Int.sub_eq_zero.1 (Int.eq_zero_of_abs_lt_dvd hdvd hlt)

theorem twosComplement_toInt {w : Nat} (v : BitVec w) : (ofBitVec v).TwosComplement v.toInt where
  lower := v.le_toInt
  upper := v.toInt_lt
  congruent := by
    have low : v.toInt % (2 ^ w : Nat) = v.toNat % (2 ^ w : Nat) := by
      rw [BitVec.toInt_eq_toNat_bmod, Int.bmod_emod]
    rw [Int.ModEq]
    exact_mod_cast low

theorem Valid.exists_ofBitVec (h : c.Valid) : ∃ w, ∃ v : BitVec w, c = ofBitVec v :=
    ⟨_, _, eq_ofBitVec h⟩

theorem toInt_eq_ok_iff (h : c.Valid) : c.toInt = .ok i ↔ SignedWidth c.bits ∧
    c.TwosComplement i := by
  obtain ⟨w, v, rfl⟩ := h.exists_ofBitVec
  rw [toInt_ofBitVec, signedAt_eq_ok_iff]
  refine and_congr_right fun hw => ⟨?_, fun hi => ?_⟩
  · rintro rfl
    exact twosComplement_toInt v
  · exact (twosComplement_toInt v).unique hi hw.1

theorem exists_toInt (h : c.Valid) (hw : SignedWidth c.bits) : ∃ i, c.toInt = .ok i := by
  obtain ⟨w, v, rfl⟩ := h.exists_ofBitVec
  exact ⟨v.toInt, (toInt_ofBitVec v).trans (if_pos hw)⟩

theorem toInt_signExtend (h : c.Valid) (hi : c.toInt = .ok i) (hle : c.bits ≤ bits)
    (hbits : bits ≤ 64) :
    (c.signExtend bits).toInt = .ok i := by
  obtain ⟨w, v, rfl⟩ := h.exists_ofBitVec
  rw [toInt_ofBitVec, signedAt_eq_ok_iff] at hi
  obtain ⟨hw, rfl⟩ := hi
  rw [signExtend_ofBitVec, toInt_ofBitVec, signedAt_eq_ok_iff]
  exact ⟨⟨hw.1.trans_le hle, hbits⟩, BitVec.toInt_signExtend_of_le hle⟩

/-- A constant fits its width. Two constants are read back from their concat, and a constant is the
concat of its parts, wherever it is cut. Bytes are read back from their constant, and a constant
from its bytes, with zeros up to a whole byte. At 1 to 64 bits the signed reading is the two's
complement number, and there is no other; sign extension keeps it. Widths that are added up, or
rounded up to whole bytes, fit a word. -/
theorem reads_back (hc : c.Made) (hd : d.Made) :
    c.value < 2 ^ c.bits ∧
    (c.bits + d.bits < UInt64.size →
      (c.concat d).Made ∧ (c.concat d).extract 0 d.bits = .ok d ∧
        (c.concat d).extract d.bits c.bits = .ok c) ∧
    (∀ k ≤ c.bits, ∃ high low, c.extract k (c.bits - k) = .ok high ∧ c.extract 0 k = .ok low ∧
      high.concat low = c) ∧
    (∀ bytes, 8 * bytes.length + 7 < UInt64.size → (ofBytes bytes).toBytes = bytes) ∧
    (c.bits + 7 < UInt64.size → ofBytes c.toBytes = c.zeroExtend (8 * ((c.bits + 7) / 8)) ∧
      (c.zeroExtend (8 * ((c.bits + 7) / 8))).value = c.value) ∧
    (SignedWidth c.bits → ∃ i, c.toInt = .ok i ∧ c.TwosComplement i ∧
      (∀ j, c.TwosComplement j → j = i) ∧ ∀ bits, c.bits ≤ bits → bits ≤ 64 →
        (c.signExtend bits).toInt = .ok i) := by
  have fits := hc.valid
  refine ⟨fits, fun hword => ⟨.concat hc hd hword, extract_concat_low hd.valid,
    extract_concat_high fits hd.valid⟩, fun k hk => ?_, fun bytes _ => toBytes_ofBytes bytes,
    fun _ => ⟨ofBytes_toBytes c, value_zeroExtend fits (by omega)⟩, fun hw => ?_⟩
  · exact ⟨_, _, extract_eq_slice (by omega), extract_eq_slice (by omega), concat_slice fits hk⟩
  · obtain ⟨i, hi⟩ := exists_toInt fits hw
    have reading := ((toInt_eq_ok_iff fits).1 hi).2
    exact ⟨i, hi, reading, fun j hj => hj.unique reading hw.1, fun bits => toInt_signExtend fits hi⟩

/-- A negative constant of twelve bits, with higher bits cut off, above bytes that end in a zero. -/
theorem reads_back_of_twelve_bits :
    let c := ofNat 0x1FA5C 12
    let d := ofBytes [0x34, 0]
    c.Made ∧ d.Made ∧ SignedWidth c.bits ∧ (c.concat d).extract 16 12 = .ok c ∧
      d.toBytes = [0x34, 0] ∧
      ofBytes c.toBytes = ⟨0xA5C, 16⟩ ∧ c.toInt = .ok (-1444) ∧
        (c.signExtend 64).toInt = .ok (-1444) := by
  intro c d
  have hc : c.Made := .ofNat _ (by decide)
  have hd : d.Made := .ofBytes _ (by decide)
  have hw : SignedWidth c.bits := by decide
  obtain ⟨-, joined, -, bytes, whole, signed⟩ := reads_back hc hd
  obtain ⟨i, hi, -, unique, wide⟩ := signed hw
  have reading : c.TwosComplement (-1444) := ⟨by decide, by decide, by decide⟩
  obtain rfl := unique _ reading
  exact ⟨hc, hd, hw, (joined (by decide)).2.2, bytes _ (by decide),
    (whole (by decide)).1.trans (by decide), hi, wide 64 (by decide) le_rfl⟩

end BitvectorCode.Constant
