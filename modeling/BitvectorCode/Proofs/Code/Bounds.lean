import BitvectorCode.Proofs.Code.Cases

/-!
# Reads inside their variables

Code accesses memory through variables and reads. The accesses stay inside declared variables when
code is simplified, and when a slice is taken from it, as long as every declared type has the size
of its width.
-/

namespace BitvectorCode

namespace TypeContext

/-- Every declared type has the bits of its width. -/
def Sized (types : TypeContext) : Prop :=
  ∀ (width : Nat) (type : Ty), types.overrides[width]? = some type → type.bits = width

theorem sized_empty : Sized {} := by
  intro width type h
  simp at h

theorem Sized.declare {types new : TypeContext} (hs : types.Sized) {width : Nat} {type : Ty}
    (h : types.declare width type = .ok new) : new.Sized := by
  unfold TypeContext.declare at h
  split at h
  · next hbits =>
    cases h
    intro w t ht
    rw [Std.TreeMap.getElem?_insert] at ht
    split at ht
    · next hw =>
      cases ht
      exact hbits.trans (Std.compare_eq_iff_eq.1 hw)
    · exact hs w t ht
  · cases h

theorem Sized.bits_typeFor {types : TypeContext} (hs : types.Sized) {width : Nat} {type : Ty}
    (h : types.typeFor width = .ok type) : type.bits = width := by
  unfold typeFor at h
  split at h
  · next known =>
    cases h
    exact hs width type known
  · split at h
    · cases h
    · split at h
      · cases h
        rfl
      · split at h
        · next h8 =>
          cases h
          change 8 * (width / 8) = width
          omega
        · cases h

end TypeContext

namespace Code

/-- A variable is declared. A read takes its bits from a declared variable, and if its index is
constant, from inside the variable. -/
def Accesses (declared : Variable → Prop) : Code → Prop
  | var v => declared v
  | read v type index =>
    declared v ∧ ∀ i, index.value? = some i → 8 * i + type.bits ≤ 8 * v.type.bytes
  | _ => True

def IsPlace : Code → Prop
  | var _ | read .. => True
  | _ => False

/-- A part of lowered code. Its accesses are right and take at least one bit. The operands of a
concat are only made into one read when together they have as many bits as the concat. -/
def Placed (declared : Variable → Prop) : Code → Prop
  | var v => declared v ∧ 0 < v.type.bits
  | read v type index =>
    declared v ∧ 0 < type.bits ∧ ∀ i, index.value? = some i → 8 * i + type.bits ≤ 8 * v.type.bytes
  | concat left right type => left.IsPlace → right.IsPlace → type.bits ≤ left.bits + right.bits
  | _ => True

variable {p q : Code → Prop} {declared : Variable → Prop} {code new left right : Code}
variable {types : TypeContext} {offset width : Nat}

theorem Placed.accesses (h : code.Placed declared) : code.Accesses declared := by
  cases code with
  | var v => exact h.1
  | read v type index => exact ⟨h.1, h.2.2⟩
  | _ => trivial

theorem Placed.bits_pos (h : code.Placed declared) (hp : code.IsPlace) : 0 < code.bits := by
  cases code with
  | var v => exact h.2
  | read v type index => exact h.2.1
  | _ => exact hp.elim

theorem value?_scalar {type : Ty} {n i : Nat} (h : (scalar type n).value? = some i) : n = i := by
  cases type <;> cases h
  all_goals rfl

theorem simplifyRead_placed {v : Variable} {type : Ty} {index : Code}
    (h : (read v type index).Everywhere (Placed declared)) :
    (simplifyRead v type index).Everywhere (Placed declared) ∧
      (simplifyRead v type index).bits = type.bits := by
  unfold simplifyRead
  split
  · next whole => exact ⟨⟨h.1.1, whole.2 ▸ h.1.2.1⟩, whole.2.symm⟩
  · exact ⟨h, rfl⟩

theorem simplified_placed (hs : types.Sized) (h : code.Everywhere (Placed declared))
    (hnew : Simplified types code new) :
    new.Everywhere (Placed declared) ∧ (new.IsPlace → code.bits ≤ new.bits) := by
  cases hnew with
  | same => exact ⟨h, fun _ => Nat.le_refl _⟩
  | read v type index =>
    obtain ⟨hplaced, hbits⟩ := simplifyRead_placed h
    exact ⟨hplaced, fun _ => Nat.le_of_eq hbits.symm⟩
  | @merged v lt rt type both li ri start hbytes hleft hright hboth =>
    obtain ⟨hconcat, ⟨⟨hv, hpos, hinside⟩, -⟩, -⟩ := h
    have hwidth := hs.bits_typeFor hboth
    have hend := hinside _ hleft
    have hread : (read v both (scalar ri.type start)).Everywhere (Placed declared) := by
      refine ⟨⟨hv, by omega, ?_⟩, trivial⟩
      intro i hi
      rw [← value?_scalar hi, hwidth]
      omega
    obtain ⟨hplaced, hbits⟩ := simplifyRead_placed hread
    have hle : type.bits ≤ lt.bits + rt.bits := hconcat trivial trivial
    exact ⟨hplaced, fun _ => by rw [hbits, hwidth]; exact hle⟩
  | joined => exact ⟨trivial, False.elim⟩
  | uncast inner => exact ⟨h.2, fun _ => Nat.le_refl _⟩

theorem part_placed {inner : Code} {o : Nat} (h : code.Everywhere (Placed declared))
    (hin : code.IsPlace → offset + width ≤ code.bits)
    (hpart : code.part offset width = .ok (inner, o)) :
    inner.Everywhere (Placed declared) ∧ (inner.IsPlace → o + width ≤ inner.bits) := by
  refine ⟨h.part hpart, fun hp => ?_⟩
  rcases part_eq_or_inside hpart with ⟨rfl, rfl⟩ | hinside
  · exact hin hp
  · exact hinside

theorem read_placed {v : Variable} {start bits : Nat} {target : Ty} (hv : declared v)
    (hpos : 0 < width) (htarget : target.bits = width) (hin : offset + width ≤ bits)
    (hinside : 8 * start + bits ≤ 8 * v.type.bytes) :
    (read v target (index (start + offset / 8))).Everywhere (Placed declared) := by
  refine ⟨⟨hv, htarget ▸ hpos, ?_⟩, trivial⟩
  intro i hi
  cases hi
  omega

theorem sliced_placed {target : Ty} (hcode : code.Everywhere (Placed declared))
    (hin : code.IsPlace → offset + width ≤ code.bits) (hpos : 0 < width)
    (htarget : target.bits = width) (hnew : Sliced offset width target code new) :
    new.Everywhere (Placed declared) ∧ new.type = target := by
  cases hnew with
  | var v =>
    have hin : offset + width ≤ v.type.bits := hin trivial
    have hbytes : 8 * 0 + v.type.bits ≤ 8 * v.type.bytes := by
      unfold Ty.bytes
      omega
    rw [← Nat.zero_add (offset / 8)]
    exact ⟨read_placed hcode.1 hpos htarget hin hbytes, rfl⟩
  | @read v type i start hstart =>
    obtain ⟨hv, -, hread⟩ := hcode.1
    exact ⟨read_placed hv hpos htarget (hin trivial) (hread start hstart), rfl⟩
  | constant hslice =>
    obtain ⟨slice, rfl⟩ := sliceConstant_eq_ok hslice
    exact ⟨trivial, rfl⟩
  | shifted => exact ⟨⟨trivial, trivial, ⟨trivial, hcode, trivial⟩, trivial⟩, rfl⟩
  | cut => exact ⟨⟨trivial, hcode⟩, rfl⟩

end Code

end BitvectorCode
