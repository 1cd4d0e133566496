import BitvectorCode.Proofs.Code.Bounds
import BitvectorCode.Proofs.Code.Slice

/-!
# Constants of the form of their type

A constant of an array type holds as many values as the type has elements, each of the bits of an
element. Any other constant holds one value of the bits of its type. Simplified and sliced code has
constants of this form again, as long as the types of widths up to a word are no arrays and those of
wider ones no primitives, and bytes are at indices of 32 bits.
-/

namespace BitvectorCode

def Ty.isArray : Ty → Bool
  | array .. => true
  | _ => false

/-- The values that a constant of the type can hold. -/
def Ty.Holds : Ty → List Nat → Prop
  | array element count, values => values.length = count ∧ ∀ n ∈ values, n < 2 ^ element.bits
  | type, values => values.length = 1 ∧ ∀ n ∈ values, n < 2 ^ type.bits

/-- A type that is declared for a width up to a word is no array, and one for a wider width no
primitive. -/
def TypeContext.SplitsAtWord (types : TypeContext) : Prop :=
  ∀ (width : Nat) (type : Ty), types.overrides[width]? = some type →
    (width ≤ 64 → type.isArray = false) ∧ (64 < width → type.isPrimitive = false)

theorem Ty.holds_singleton {type : Ty} {n : Nat} (htype : type.isArray = false)
    (hn : n < 2 ^ type.bits) :
    type.Holds [n] := by
  cases type with
  | array element count => cases htype
  | primitive bits signed | pointer pointee | struct name fields size =>
    exact ⟨rfl, by simpa using hn⟩

theorem Ty.isArray_of_isPrimitive {type : Ty} (h : type.isPrimitive = true) :
    type.isArray = false := by
  cases type with
  | primitive bits signed => rfl
  | _ => cases h

section TypeFor

variable {types : TypeContext} {width : Nat} {type : Ty}

theorem TypeContext.SplitsAtWord.isArray_typeFor (hs : types.SplitsAtWord) (hw : width ≤ 64)
    (h : types.typeFor width = .ok type) : type.isArray = false := by
  unfold typeFor at h
  split at h
  · next known =>
    cases h
    exact (hs width type known).1 hw
  · split at h
    · cases h
    · cases h
      rfl

theorem TypeContext.SplitsAtWord.le_of_isPrimitive (hs : types.SplitsAtWord)
    (h : types.typeFor width = .ok type) (hp : type.isPrimitive = true) : width ≤ 64 := by
  unfold typeFor at h
  split at h
  · next known =>
    cases h
    by_contra hw
    have := (hs width type known).2 (by omega)
    simp [hp] at this
  · split at h
    · cases h
    · split at h
      · assumption
      · split at h
        · cases h
          cases hp
        · cases h

end TypeFor

theorem TypeContext.splitsAtWord_empty : SplitsAtWord {} := by
  intro width type h
  simp at h

theorem TypeContext.SplitsAtWord.declare {types new : TypeContext} (hs : types.SplitsAtWord)
    {width : Nat} {type : Ty} (hword : width ≤ 64 → type.isArray = false)
    (hwide : 64 < width → type.isPrimitive = false) (h : types.declare width type = .ok new) :
    new.SplitsAtWord := by
  unfold TypeContext.declare at h
  split at h
  · cases h
    intro w t ht
    rw [Std.TreeMap.getElem?_insert] at ht
    split at ht
    · next hw =>
      cases ht
      cases Std.compare_eq_iff_eq.1 hw
      exact ⟨hword, hwide⟩
    · exact hs w t ht
  · cases h

namespace Code

/-- A constant holds values that its type can hold. -/
def ConstantFits : Code → Prop
  | constant type values => type.Holds values
  | _ => True

/-- Slices can be taken of the code: a primitive constant fits a word, and the bytes of a variable,
and those that a read at a constant index takes, are at indices of 32 bits. -/
def sliceable : Code → Bool
  | constant type _ => !type.isPrimitive || type.bits ≤ 64
  | var v => v.type.bits ≤ 8 * 2 ^ 32
  | read _ type index => index.value?.all fun i => 8 * i + type.bits ≤ 8 * 2 ^ 32
  | _ => true

/-- Code whose constants all have the form of their type, and from which slices can be taken. -/
structure HoldsConstants (code : Code) : Prop where
  fits : code.Everywhere ConstantFits
  surface : code.Surface fun part => part.sliceable = true

variable {code new : Code} {types : TypeContext} {offset width : Nat} {target type : Ty}
    {values : List Nat}

theorem ConstantFits.of_value? {n : Nat} (h : code.ConstantFits) (hn : code.value? = some n) :
    code = scalar code.type n ∧ code.type.isArray = false ∧ n < 2 ^ code.bits := by
  cases code with
  | constant type values =>
    cases type with
    | array element count => cases hn
    | primitive bits signed | pointer pointee | struct name fields size =>
      obtain ⟨hlen, hlt⟩ := h
      obtain ⟨v, rfl⟩ := List.length_eq_one_iff.1 hlen
      cases hn
      exact ⟨rfl, rfl, hlt n (by simp)⟩
  | _ => cases hn

theorem constantFits_scalar {n : Nat} (htype : type.isArray = false) (hn : n < 2 ^ type.bits) :
    (scalar type n).ConstantFits := Ty.holds_singleton htype hn

theorem HoldsConstants.part {inner : Code} {o : Nat} (h : code.HoldsConstants)
    (hin : offset + width ≤ code.bits) (hpart : code.part offset width = .ok (inner, o)) :
    inner.HoldsConstants ∧ o + width ≤ inner.bits := by
  refine ⟨⟨h.fits.part hpart, h.surface.part hpart⟩, ?_⟩
  rcases part_eq_or_inside hpart with ⟨rfl, rfl⟩ | hinside
  · exact hin
  · exact hinside

theorem simplifyRead_holdsConstants {v : Variable} {index : Code}
    (h : (read v type index).HoldsConstants) : (simplifyRead v type index).HoldsConstants := by
  unfold simplifyRead
  split
  · next hwhole =>
    obtain ⟨hstart, hbits⟩ := hwhole
    refine ⟨trivial, ?_⟩
    have hread : (read v type index).sliceable = true := h.surface
    simpa [Surface, sliceable, hstart, ← hbits] using hread
  · exact h

theorem read_holdsConstants {v : Variable} {start bits : Nat} (hpos : 0 < width)
    (hin : offset + width ≤ bits) (htarget : target.bits = width)
    (hplace : 8 * start + bits ≤ 8 * 2 ^ 32) :
    (read v target (index (start + offset / 8))).HoldsConstants := by
  have hindex : (index (start + offset / 8)).ConstantFits :=
    constantFits_scalar rfl (show start + offset / 8 < 2 ^ 32 by omega)
  refine ⟨⟨trivial, hindex⟩,
    decide_eq_true (?_ : 8 * (start + offset / 8) + target.bits ≤ 8 * 2 ^ 32)⟩
  omega

theorem wordMask_lt {bits : Nat} (h : width ≤ bits) : wordMask width < 2 ^ bits := by
  rw [wordMask, ones_eq]
  have hle : 2 ^ min width 64 ≤ 2 ^ bits := Nat.pow_le_pow_right (by decide) (by omega)
  have hpos := Nat.two_pow_pos (min width 64)
  omega

section

variable (sized : types.Sized) (hs : types.SplitsAtWord)
include sized hs

theorem scalar_holdsConstants {n : Nat} (hw : width ≤ 64) (htype : types.typeFor width = .ok type)
    (hn : n < 2 ^ width) : (scalar type n).HoldsConstants := by
  have hbits := sized.bits_typeFor htype
  refine ⟨constantFits_scalar (hs.isArray_typeFor hw htype) (by rwa [hbits]), ?_⟩
  simp [Surface, scalar, sliceable, hbits, hw]

theorem simplified_holdsConstants (h : code.HoldsConstants) (hnew : Simplified types code new) :
    new.HoldsConstants := by
  cases hnew with
  | same => exact h
  | read v type index => exact simplifyRead_holdsConstants h
  | @merged v lt rt type both li ri start hbytes hleft hright hboth =>
    obtain ⟨-, ⟨-, -⟩, -, hri⟩ := h.fits
    obtain ⟨hindex, -, -⟩ := hri.self.of_value? hright
    have hplace : (Code.read v lt li).sliceable = true := h.surface.2.1
    have hbits := sized.bits_typeFor hboth
    apply simplifyRead_holdsConstants
    refine ⟨⟨trivial, hindex ▸ hri⟩, ?_⟩
    simp only [sliceable, hleft, Option.all_some, decide_eq_true_eq] at hplace
    simp only [Surface, ← hindex, sliceable, hright, Option.all_some, decide_eq_true_eq, hbits]
    omega
  | joined hleft hright hword hboth =>
    obtain ⟨-, hfl, hfr⟩ := h.fits
    obtain ⟨-, -, hl⟩ := hfl.self.of_value? hleft
    obtain ⟨-, -, hr⟩ := hfr.self.of_value? hright
    exact scalar_holdsConstants sized hs hword hboth (joined_lt hl hr)
  | uncast inner => exact ⟨h.fits.2, h.surface.2⟩

theorem sliceConstant_holdsConstants (h : (constant type values).HoldsConstants) (hpos : 0 < width)
    (hin : offset + width ≤ type.bits) (htarget : types.typeFor width = .ok target)
    (hnew : sliceConstant type values offset width target = .ok new) : new.HoldsConstants := by
  have hbits := sized.bits_typeFor htarget
  unfold sliceConstant at hnew
  cases type with
  | primitive size signed =>
    have hsize : size ≤ 64 := of_decide_eq_true h.surface
    have hin : offset + width ≤ size := hin
    cases hnew
    apply scalar_holdsConstants sized hs (by omega) htarget
    rw [wordMask_eq (by omega), ones_eq, Nat.and_two_pow_sub_one_eq_mod]
    exact Nat.mod_lt _ (Nat.two_pow_pos _)
  | array element count =>
    obtain ⟨hlen, hlt⟩ := h.fits
    dsimp only at hnew
    split at hnew
    · cases hnew
    · next haligned =>
      obtain ⟨-, hdvd⟩ : offset % element.bits = 0 ∧ width % element.bits = 0 := by
        simpa [not_or] using haligned
      have helement : 0 < element.bits := by
        by_contra hzero
        rw [Nat.eq_zero_of_not_pos hzero, Nat.mod_zero] at hdvd
        omega
      have hcount : width / element.bits * element.bits = width :=
        Nat.div_mul_cancel (Nat.dvd_of_mod_eq_zero hdvd)
      unfold elements? at hnew
      split at hnew
      · cases hnew
      · next slice hslice =>
        obtain ⟨hlength, hdigits⟩ : slice.length = width / element.bits ∧
          ∀ n ∈ slice, n < 2 ^ element.bits := by
          split at hslice <;> cases hslice
          refine ⟨by rw [List.length_take, List.length_drop]; omega, fun n hn => ?_⟩
          exact hlt n (List.mem_of_mem_drop (List.mem_of_mem_take hn))
        cases target with
        | array targetElement targetCount =>
          have hwide : 64 < width := by
            by_contra hword
            cases hs.isArray_typeFor (Nat.not_lt.1 hword) htarget
          dsimp only at hnew
          split at hnew
          · next helementwise =>
            have hsame : targetElement.bits = element.bits := eq_of_beq helementwise
            have htotal : targetElement.bits * targetCount = width := hbits
            have hslots : width / element.bits = targetCount := by
              rw [← htotal, hsame, Nat.mul_div_cancel_left _ helement]
            cases hnew
            exact ⟨⟨hlength.trans hslots, fun n hn => hsame ▸ hdigits n hn⟩, rfl⟩
          · cases hnew
        | primitive size signed | pointer pointee | struct name fields size =>
          simp only [Bool.false_eq_true, if_false] at hnew
          split at hnew
          · cases hnew
          · next hword =>
            cases hnew
            apply scalar_holdsConstants sized hs (Nat.not_lt.1 hword) htarget
            rw [joinElements_eq_ofDigits helement hdigits (by rw [hlength]; omega)]
            have hlt := ofDigits_lt helement hdigits
            rwa [hlength, hcount] at hlt
  | pointer pointee | struct name fields size => cases hnew

theorem sliced_holdsConstants (h : code.HoldsConstants) (hpos : 0 < width)
    (hin : offset + width ≤ code.bits) (htarget : types.typeFor width = .ok target)
    (hnew : Sliced offset width target code new) :
    new.HoldsConstants := by
  have hbits := sized.bits_typeFor htarget
  cases hnew with
  | var v =>
    have hplace : v.type.bits ≤ 8 * 2 ^ 32 := of_decide_eq_true h.surface
    have hin : offset + width ≤ v.type.bits := hin
    rw [← Nat.zero_add (offset / 8)]
    exact read_holdsConstants hpos hin hbits (by omega)
  | @read v type i start hstart =>
    have hplace : (Code.read v type i).sliceable = true := h.surface
    simp only [sliceable, hstart, Option.all_some, decide_eq_true_eq] at hplace
    exact read_holdsConstants hpos hin hbits hplace
  | constant hslice => exact sliceConstant_holdsConstants sized hs h hpos hin htarget hslice
  | shifted hprimitive hoffset =>
    have harray := Ty.isArray_of_isPrimitive hprimitive
    have hamount : offset < 2 ^ code.type.bits :=
      Nat.lt_trans (by change offset < code.bits; omega) Nat.lt_two_pow_self
    have hmask : wordMask width < 2 ^ code.type.bits :=
      wordMask_lt (by change width ≤ code.bits; omega)
    exact ⟨⟨trivial, trivial, ⟨trivial, h.fits, constantFits_scalar harray hamount⟩,
      constantFits_scalar harray hmask⟩, rfl, rfl⟩
  | cut hprimitive hoffset => exact ⟨⟨trivial, h.fits⟩, rfl, h.surface⟩

end

end Code

end BitvectorCode
