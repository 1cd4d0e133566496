import BitvectorCode.Proofs.Code.Simplify
import Mathlib.Data.List.Induction

/-!
# Slices of lowered code

The part that a slice is taken from holds the bits of the slice, at a whole byte if only whole bytes
stand to the right of it. A constant gives exactly these bits, and so do a shift, a mask and a cast.
A variable, or a read of known bytes, is read from a further byte on, which gives the bits from the
last whole byte before them.
-/

namespace BitvectorCode

open Code

variable {lows : Nat → Prop} {store : Store} {code new : Code} {types : TypeContext}
    {offset width : Nat}
variable {target : Ty}

theorem wordMask_eq (h : width ≤ 64) : wordMask width = ones width := by
  rw [wordMask, Nat.min_eq_left h]

theorem Ty.slice_literal {type : Ty} {values : List Nat} (h : ∀ n ∈ values, n < 2 ^ type.digitBits)
    (start count : Nat) :
    (type.literal values).slice (start * type.digitBits) (count * type.digitBits) =
      ⟨Nat.ofDigits (2 ^ type.digitBits) ((values.drop start).take count),
        count * type.digitBits⟩ := by
  have hbase : 0 < 2 ^ type.digitBits := Nat.two_pow_pos _
  have hdrop : ∀ n ∈ values.drop start, n < 2 ^ type.digitBits :=
    fun n hn => h n (List.mem_of_mem_drop hn)
  rw [Constant.slice, Constant.ofNat, lowBits_eq_mod, Nat.shiftRight_eq_div_pow]
  rw [Nat.mul_comm start, Nat.mul_comm count, Nat.pow_mul, Nat.pow_mul]
  rw [literal, Nat.ofDigits_div_pow_eq_ofDigits_drop start hbase values h,
    Nat.ofDigits_mod_pow_eq_ofDigits_take count hbase _ hdrop]

/-- Digits that fit a word together are joined to the number they make up. The induction takes off
the highest digit, as the word is filled from below. -/
theorem joinElements_eq_ofDigits {bits : Nat} (hbits : 0 < bits) {values : List Nat}
    (h : ∀ n ∈ values, n < 2 ^ bits) (hlen : values.length * bits ≤ 64) :
    joinElements bits values = Nat.ofDigits (2 ^ bits) values := by
  induction values using List.reverseRecOn with
  | nil => rfl
  | append_singleton values n ih =>
    have hn : n < 2 ^ bits := h n (by simp)
    have hlen : (values.length + 1) * bits ≤ 64 := by simpa using hlen
    rw [Nat.succ_mul] at hlen
    have hvalues : ∀ m ∈ values, m < 2 ^ bits := fun m hm => h m (by simp [hm])
    have hlow := ofDigits_lt hbits hvalues
    have hhigh : n <<< (values.length * bits) < 2 ^ 64 := by
      rw [Nat.shiftLeft_eq]
      calc n * 2 ^ (values.length * bits)
        _ < 2 ^ bits * 2 ^ (values.length * bits) :=
            Nat.mul_lt_mul_of_pos_right hn (Nat.two_pow_pos _)
        _ = 2 ^ (values.length * bits + bits) := by rw [← Nat.pow_add, Nat.add_comm]
        _ ≤ 2 ^ 64 := Nat.pow_le_pow_right (by decide) hlen
    have hjoin : joinElements bits (values ++ [n]) =
        joinElements bits values ||| lowBits (n <<< (values.length * bits)) 64 := by
      simp [joinElements, List.zipIdx_append]
    rw [hjoin, ih hvalues (by omega), lowBits_eq_mod, Nat.mod_eq_of_lt hhigh]
    rw [Nat.ofDigits_append, Nat.ofDigits_singleton, ← Nat.pow_mul, Nat.mul_comm bits, Nat.add_comm]
    rw [Nat.two_pow_add_eq_or_of_lt hlow, Nat.or_comm, Nat.shiftLeft_eq, Nat.mul_comm n]

namespace Code

theorem sliceConstant_gives (hd : types.overrides = ∅) {type : Ty} {values : List Nat}
    (hok : (constant type values).Ok lows store) (hpos : 0 < width)
    (hin : offset + width ≤ type.bits) (htarget : types.typeFor width = .ok target)
    (h : sliceConstant type values offset width target = .ok new) :
    new.Gives lows store width fun c => (type.literal values).slice offset width = c := by
  obtain ⟨hplain, hlen, hlt⟩ := hok
  cases type with
  | primitive bits signed =>
    obtain ⟨-, hbits, hle⟩ := hplain
    have hin : offset + width ≤ bits := hin
    have hone : values.length = 1 :=
      Nat.eq_of_mul_eq_mul_right hbits (hlen.trans (Nat.one_mul bits).symm)
    obtain ⟨v, rfl⟩ := List.length_eq_one_iff.1 hone
    have hslice : (v >>> offset) &&& wordMask width = lowBits (v >>> offset) width := by
      rw [wordMask_eq (by omega), ones_eq, Nat.and_two_pow_sub_one_eq_mod, lowBits_eq_mod]
    unfold sliceConstant at h
    simp only [if_neg (show ¬ 64 ≤ offset by omega), List.headD_cons, hslice] at h
    cases h
    rw [TypeContext.typeFor_of_le hd (by omega) htarget]
    apply (scalar_gives hpos (by omega) (lowBits_lt _ _)).mono
    rintro c rfl
    simp [Ty.literal, Constant.slice, Constant.ofNat, Nat.ofDigits_singleton]
  | array element count =>
    obtain ⟨rfl, hcount⟩ := hplain
    have hbits : (Ty.array .byte count).digitBits = 8 := rfl
    have hbyte : Ty.byte.bits = 8 := rfl
    unfold sliceConstant at h
    simp only [hbyte] at h
    split at h
    · cases h
    · next haligned =>
      unfold elements? at h
      split at h
      · cases h
      · next slice hslice =>
        have hstart : offset / 8 * 8 = offset := by omega
        have hcount : width / 8 * 8 = width := by omega
        have hvalue := Ty.slice_literal hlt (offset / 8) (width / 8)
        rw [hbits, hstart, hcount] at hvalue
        have hlength : slice.length = width / 8 := by
          split at hslice <;> cases hslice
          rw [List.length_take, List.length_drop]
          omega
        have hdigits : slice = (values.drop (offset / 8)).take (width / 8) := by
          split at hslice <;> cases hslice
          rfl
        have hslt : ∀ n ∈ slice, n < 2 ^ 8 := by
          intro n hn
          rw [hdigits] at hn
          exact hlt n (List.mem_of_mem_drop (List.mem_of_mem_take hn))
        rw [← hdigits] at hvalue
        rcases TypeContext.typeFor_eq_ok hd htarget with ⟨-, hle, rfl⟩ | ⟨hwide, -, rfl⟩
        · have h : (if 64 < width then .error (Error.tooWide width)
              else .ok (scalar (.unsigned width) (joinElements 8 slice))) = Except.ok new := h
          rw [if_neg (Nat.not_lt.2 hle)] at h
          cases h
          rw [joinElements_eq_ofDigits (by decide) hslt (by omega)]
          have hfits := ofDigits_lt (by decide) hslt
          rw [hlength, hcount] at hfits
          exact (scalar_gives hpos hle hfits).mono fun c hc => hvalue.symm.trans hc
        · have h : Except.ok (constant (.array .byte (width / 8)) slice) = Except.ok new := h
          cases h
          exact (bytes_gives hpos (by omega) hslt).mono fun c hc => hvalue.symm.trans hc
  | pointer pointee | struct name fields size => exact hplain.elim

theorem Ok.type_eq_of_isPrimitive (hok : code.Ok lows store)
    (hprimitive : code.type.isPrimitive = true) :
    ∃ bits, code.type = .unsigned bits ∧ bits ≤ 64 := by
  have hplain := hok.plain
  cases htype : code.type with
  | primitive bits signed =>
    rw [htype] at hplain
    obtain ⟨rfl, -, hle⟩ := hplain
    exact ⟨bits, rfl, hle⟩
  | _ =>
    rw [htype] at hprimitive
    cases hprimitive

theorem shifted_gives (hok : code.Ok lows store) (hprimitive : code.type.isPrimitive = true)
    (hin : offset + width ≤ code.bits) (hplain : target.Plain) (hbits : target.bits = width) :
    (cast (binary .and (binary .shr code (scalar code.type offset) code.type)
      (scalar code.type (wordMask width)) code.type) target).Gives lows store width
        fun c => ∃ d, code.eval store = some d ∧ d.slice offset width = c := by
  obtain ⟨bits, htype, hle⟩ := hok.type_eq_of_isPrimitive hprimitive
  have hin : offset + width ≤ bits := by
    rw [Code.bits, htype] at hin
    exact hin
  rw [htype]
  refine ⟨⟨by rw [← htype]; exact hok.plain, hplain⟩, hbits, ?_⟩
  intro c hc
  rcases hc with ⟨d, hd, rfl⟩
  have hshifted : (binary .shr code (scalar (.unsigned bits) offset) (.unsigned bits)).eval store =
      some (.ofNat (d.value >>> offset) bits) := by
    simp only [eval, hd, eval_scalar, CodeOp.eval, htype, Option.bind_eq_bind, Option.bind_some]
    exact congrArg some (Constant.ofInt_natCast _ _)
  rw [eval, eval, hshifted, eval_scalar]
  apply congrArg some
  apply Constant.eq_of_testBit
  · exact hbits
  intro i
  have hmask : wordMask width = ones width := wordMask_eq (by omega)
  change (Constant.ofNat (Constant.ofNat ((Constant.ofNat (d.value >>> offset) bits).value &&&
    wordMask width) bits).value target.bits).value.testBit i = _
  rw [Constant.testBit_slice, Constant.testBit_ofNat, Constant.testBit_ofNat, Nat.testBit_and,
    Constant.testBit_ofNat, hmask, testBit_ones, Nat.testBit_shiftRight, hbits]
  by_cases hi : i < width
  · have hib : i < bits := by omega
    simp [hi, hib]
  · simp [hi]

theorem cut_gives (hok : code.Ok lows store) (hoffset : offset = 0) (hplain : target.Plain)
    (hbits : target.bits = width) :
    (cast code target).Gives lows store width
      fun c => ∃ d, code.eval store = some d ∧ d.slice offset width = c := by
  refine ⟨⟨hok, hplain⟩, hbits, ?_⟩
  intro c hc
  rcases hc with ⟨d, hd, rfl⟩
  simp [eval, hd, hok.plain.isSigned_eq, hbits, hoffset, Constant.slice, Constant.zeroExtend]

theorem read_gives_slice {v : Variable} {bits : Nat} (start : Nat) (hv : v.Whole)
    (hinside : 8 * start + bits ≤ v.type.bits) (ho : offset % 8 = 0) (hin : offset + width ≤ bits)
    (hplain : target.Plain) (hbits : target.bits = width) :
    (read v target (.index (start + offset / 8))).Gives lows store width
      fun c => (store.read v start bits).slice offset width = c := by
  have hindex : (index (start + offset / 8)).IsIndex store (start + offset / 8) :=
    isIndex_scalar _ _
  refine ⟨⟨hv, hplain, start + offset / 8, hindex, by omega⟩, hbits, ?_⟩
  rintro c rfl
  rw [eval_read hindex, Store.slice_read ho hin, hbits]

/-- A variable, or a read of bytes that are known: a slice of it is read from it. -/
def isAddressed : Code → Bool
  | var _ => true
  | read _ _ index => index.value?.isSome
  | _ => false

/-- How far below its bits a slice starts. What is read starts at a whole byte. -/
def slack (code : Code) (offset : Nat) : Nat := if code.isAddressed then offset % 8 else 0

theorem slack_le : code.slack offset ≤ offset := by
  unfold slack
  split
  · exact Nat.mod_le offset 8
  · exact Nat.zero_le offset

theorem slack_eq_zero (h : code.isAddressed = true → offset % 8 = 0) : code.slack offset = 0 := by
  unfold slack
  split
  · next haddressed => exact h haddressed
  · rfl

theorem sliced_gives (hd : types.overrides = ∅) (hok : code.Ok lows store)
    (ho : code.isAddressed = true → offset % 8 = 0) (hpos : 0 < width)
    (hin : offset + width ≤ code.bits) (htarget : types.typeFor width = .ok target)
    (h : Sliced offset width target code new) :
    new.Gives lows store width fun c => ∃ d, code.eval store = some d ∧
      d.slice offset width = c := by
  obtain ⟨hplain, hbits⟩ := TypeContext.typeFor_plain hd htarget
  cases h with
  | var v =>
    have hinside : 8 * 0 + v.type.bits ≤ v.type.bits := by omega
    rw [← Nat.zero_add (offset / 8)]
    apply (read_gives_slice 0 hok hinside (ho rfl) hin hplain hbits).mono
    intro c hc
    rcases hc with ⟨d, hc, rfl⟩
    cases hc
    rfl
  | constant hslice =>
    apply (sliceConstant_gives hd hok hpos hin htarget hslice).mono
    intro c hc
    rcases hc with ⟨d, hc, rfl⟩
    cases hc
    rfl
  | read hvalue =>
    obtain ⟨hv, -, start, hstart, hinside⟩ := hok
    rw [hstart.2 _ hvalue]
    apply (read_gives_slice start hv hinside (ho (by rw [isAddressed, hvalue]; rfl))
      hin hplain hbits).mono
    intro c hc
    rcases hc with ⟨d, hc, rfl⟩
    rw [eval_read hstart] at hc
    cases hc
    rfl
  | shifted hprimitive hoffset => exact shifted_gives hok hprimitive hin hplain hbits
  | cut hprimitive hoffset => exact cut_gives hok hoffset hplain hbits

theorem slice_of_isAddressed (h : code.isAddressed = true) :
    code.slice offset width target = code.slice (offset - offset % 8) width target := by
  have hbyte : (offset - offset % 8) / 8 = offset / 8 := by omega
  cases code with
  | var v => rw [slice, slice, hbyte]
  | read v type i =>
    obtain ⟨start, hstart⟩ := Option.isSome_iff_exists.1 h
    simp only [slice, hstart, hbyte]
  | _ => cases h

theorem slice_gives (hd : types.overrides = ∅) (hok : code.Ok lows store) (hpos : 0 < width)
    (hin : offset + width ≤ code.bits) (htarget : types.typeFor width = .ok target)
    (h : code.slice offset width target = .ok new) : new.Gives lows store width
      fun c => ∃ d, code.eval store = some d ∧ d.slice (offset - code.slack offset) width = c := by
  by_cases haddressed : code.isAddressed = true
  · have hslack : code.slack offset = offset % 8 := if_pos haddressed
    rw [slice_of_isAddressed haddressed] at h
    rw [hslack]
    exact sliced_gives hd hok (fun _ => by omega) hpos (by omega) htarget (sliced_of_slice h)
  · have hslack : code.slack offset = 0 := if_neg haddressed
    rw [hslack]
    exact sliced_gives hd hok (fun h => absurd h haddressed) hpos hin htarget (sliced_of_slice h)

theorem Ok.eval_slice_all {c : Constant} (hok : code.Ok lows store)
    (hc : code.eval store = some c) :
    code.eval store = some (c.slice 0 code.bits) := by
  obtain ⟨hbits, hvalid⟩ := hok.eval_fits hc
  rw [← hbits, Constant.slice_all hvalid, hc]

theorem part_spec {inner : Code} {o : Nat} (hok : code.Ok lows store)
    (hin : offset + width ≤ code.bits) (h : code.part offset width = .ok (inner, o)) :
    inner.Ok lows store ∧ o + width ≤ inner.bits ∧ ∃ start, start + o = offset ∧
      start + inner.bits ≤ code.bits ∧
      ∀ c, code.eval store = some c → inner.eval store = some (c.slice start inner.bits) := by
  induction code generalizing offset with
  | concat left right type ihl ihr =>
    obtain ⟨-, hl, hr, hbits, -⟩ := id hok
    have hbits : (concat left right type).bits = left.bits + right.bits := hbits
    unfold part at h
    split at h
    · cases h
      exact ⟨hok, hin, 0, Nat.zero_add _, by omega, fun c => hok.eval_slice_all⟩
    · split at h
      · next hlow =>
        obtain ⟨hpart, hin', start, hstart, hend, hvalue⟩ := ihr hr hlow h
        refine ⟨hpart, hin', start, hstart, by omega, ?_⟩
        intro c hc
        obtain ⟨lc, rc, hlc, hrc, rfl⟩ := eval_concat_eq_some_iff.1 hc
        rw [hvalue rc hrc, Constant.slice_concat_low ((hr.eval_fits hrc).1 ▸ hend)]
      · split at h
        · next hhigh =>
          obtain ⟨hpart, hin', start, hstart, hend, hvalue⟩ := ihl hl hhigh.2 h
          refine ⟨hpart, hin', right.bits + start, by omega, by omega, ?_⟩
          intro c hc
          obtain ⟨lc, rc, hlc, hrc, rfl⟩ := eval_concat_eq_some_iff.1 hc
          obtain ⟨hrbits, hrvalid⟩ := hr.eval_fits hrc
          have hlbits := (hl.eval_fits hlc).1
          rw [hvalue lc hlc, Constant.slice_concat_high hrvalid (by omega) (by omega), hrbits,
            Nat.add_sub_cancel_left]
        · cases h
  | _ =>
    cases h
    exact ⟨hok, hin, 0, Nat.zero_add _, by omega, fun c => hok.eval_slice_all⟩

theorem part_aligned {inner : Code} {o : Nat} (hok : code.Ok (· % 8 = 0) store)
    (ho : offset % 8 = 0) (h : code.part offset width = .ok (inner, o)) : o % 8 = 0 := by
  induction code generalizing offset with
  | concat left right type ihl ihr =>
    obtain ⟨-, hl, hr, -, hr8⟩ := hok
    have hr8 : right.bits % 8 = 0 := hr8
    unfold part at h
    split at h
    · cases h
      exact ho
    · split at h
      · exact ihr hr ho h
      · split at h
        · exact ihl hl (by omega) h
        · cases h
  | _ =>
    cases h
    exact ho

end Code

end BitvectorCode
