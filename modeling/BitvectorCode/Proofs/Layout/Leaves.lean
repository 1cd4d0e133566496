import BitvectorCode.Layout.Struct
import BitvectorCode.Lowering.Diff
import BitvectorCode.Proofs.Outcome

/-!
# Leaves of a type

The leaves of a type are the parts that are assigned as a whole: primitive and pointer fields, which
nested structs and arrays are walked through to reach, and the elements of arrays. When the structs
of the type were laid out from fields, its leaves lie inside it, one after the other.
-/

namespace BitvectorCode

/-- A part that is assigned as a whole: the way to it, and its bits. -/
structure Leaf where
  path : List PathStep
  offset : Nat
  width : Nat
deriving DecidableEq

def Leaf.within (step : PathStep) (offset : Nat) (leaf : Leaf) : Leaf :=
  ⟨step :: leaf.path, offset + leaf.offset, leaf.width⟩

def Leaf.Before (a b : Leaf) : Prop := a.offset + a.width ≤ b.offset

def Leaf.element (bits i : Nat) : Leaf := ⟨[.element i], i * bits, bits⟩

namespace Ty

mutual
/-- The leaves in the order in which the type lists them. -/
def leaves : Ty → List Leaf
  | primitive bits _ => [⟨[], 0, bits⟩]
  | pointer _ => [⟨[], 0, 64⟩]
  | struct _ fields _ => leavesOfFields fields
  | array element count => (List.range count).map (Leaf.element element.bits)

def leavesOfFields : List (Field Ty) → List Leaf
  | [] => []
  | ⟨name, offset, type⟩ :: rest =>
    type.leaves.map (Leaf.within (.field name) (offset * 8)) ++ leavesOfFields rest
end

mutual
/-- The structs that are walked into were laid out from fields. -/
def Laid : Ty → Prop
  | struct name fields size =>
    (∃ given layout, StructLayout.ofFields name given size = .ok layout ∧
      layout.type = struct name fields size) ∧ FieldsLaid fields
  | _ => True

def FieldsLaid : List (Field Ty) → Prop
  | [] => True
  | ⟨_, _, type⟩ :: rest => type.Laid ∧ FieldsLaid rest
end

theorem checkFields_of_ofFields {name : String} {given : List (Field Ty)} {size : Nat}
    {layout : StructLayout} (h : StructLayout.ofFields name given size = .ok layout) :
    layout.name = name ∧ layout.size = size ∧
      ∃ span ≤ size, StructLayout.checkFields name 0 layout.fields = .ok span := by
  obtain ⟨span, hspan, h⟩ := bind_eq_ok_iff.1 h
  by_cases hsize : size < span
  · rw [if_pos hsize] at h
    cases h
  · rw [if_neg hsize] at h
    cases h
    exact ⟨rfl, rfl, span, Nat.not_lt.1 hsize, hspan⟩

theorem checkFields_cons_eq_ok_iff {name : String} {start span : Nat} {field : Field Ty}
    {rest : List (Field Ty)} :
    StructLayout.checkFields name start (field :: rest) = .ok span ↔
      start ≤ field.offset ∧ field.type.bits % 8 = 0 ∧
        StructLayout.checkFields name (field.offset + field.type.bytes) rest = .ok span := by
  rw [StructLayout.checkFields]
  split
  · simp only [reduceCtorEq, false_iff]
    omega
  split
  · simp only [reduceCtorEq, false_iff]
    omega
  · constructor
    · exact fun h => ⟨by omega, by omega, h⟩
    · exact fun h => h.2.2

theorem bytes_mul_eight {t : Ty} (h : t.bits % 8 = 0) : t.bytes * 8 = t.bits := by
  unfold bytes
  omega

theorem le_of_checkFields {name : String} {start span : Nat} {fields : List (Field Ty)}
    (h : StructLayout.checkFields name start fields = .ok span) : start ≤ span := by
  induction fields generalizing start with
  | nil => exact Nat.le_of_eq (Except.ok.inj h)
  | cons field rest ih =>
    obtain ⟨hstart, -, hrest⟩ := checkFields_cons_eq_ok_iff.1 h
    exact Nat.le_trans hstart (Nat.le_trans (Nat.le_add_right _ _) (ih hrest))

theorem field_le_of_checkFields {name : String} {start span : Nat} {fields : List (Field Ty)}
    (h : StructLayout.checkFields name start fields = .ok span) :
    ∀ field ∈ fields, field.offset * 8 + field.type.bits ≤ span * 8 := by
  induction fields generalizing start with
  | nil => nofun
  | cons first rest ih =>
    obtain ⟨-, hbits, hrest⟩ := checkFields_cons_eq_ok_iff.1 h
    have hspan := le_of_checkFields hrest
    have hbytes := bytes_mul_eight hbits
    refine List.forall_mem_cons.2 ⟨?_, ih hrest⟩
    omega

theorem Laid.checkFields {name : String} {fields : List (Field Ty)} {size : Nat}
    (h : (struct name fields size).Laid) :
    ∃ span ≤ size, StructLayout.checkFields name 0 fields = .ok span := by
  obtain ⟨⟨given, layout, hlayout, htype⟩, -⟩ := h
  obtain ⟨-, -, checked⟩ := checkFields_of_ofFields hlayout
  simp only [StructLayout.type, struct.injEq] at htype
  rwa [htype.2.1] at checked

theorem Laid.field_le {name : String} {fields : List (Field Ty)} {size : Nat}
    (h : (struct name fields size).Laid) :
    ∀ field ∈ fields, field.offset * 8 + field.type.bits ≤ size * 8 := by
  obtain ⟨span, hspan, hcheck⟩ := h.checkFields
  intro field hfield
  have := field_le_of_checkFields hcheck field hfield
  omega

mutual
theorem leaf_le : ∀ {t : Ty}, t.Laid → ∀ leaf ∈ t.leaves, leaf.offset + leaf.width ≤ t.bits
  | primitive bits _, _, leaf, hleaf => by
    rw [leaves, List.mem_singleton] at hleaf
    simp [hleaf, Ty.bits]
  | pointer _, _, leaf, hleaf => by
    rw [leaves, List.mem_singleton] at hleaf
    simp [hleaf, Ty.bits]
  | struct name fields size, laid, leaf, hleaf => by
    obtain ⟨span, hspan, hcheck⟩ := laid.checkFields
    have := (leaf_between laid.2 hcheck leaf hleaf).2
    simp only [Ty.bits]
    omega
  | array element count, _, leaf, hleaf => by
    obtain ⟨i, hi, rfl⟩ := List.mem_map.1 hleaf
    have hlt : i + 1 ≤ count := List.mem_range.1 hi
    calc i * element.bits + element.bits = (i + 1) * element.bits := (Nat.succ_mul _ _).symm
      _ ≤ count * element.bits := Nat.mul_le_mul_right _ hlt
      _ = element.bits * count := Nat.mul_comm _ _

theorem leaf_between : ∀ {fields : List (Field Ty)} {name : String} {start span : Nat},
    FieldsLaid fields → StructLayout.checkFields name start fields = .ok span →
    ∀ leaf ∈ leavesOfFields fields, start * 8 ≤ leaf.offset ∧ leaf.offset + leaf.width ≤ span * 8
  | [], _, _, _, _, _, leaf, hleaf => by
    rw [leavesOfFields] at hleaf
    cases hleaf
  | ⟨name, offset, type⟩ :: rest, _, start, span, hlaid, hcheck, leaf, hleaf => by
    obtain ⟨hstart, hbits, hrest⟩ := checkFields_cons_eq_ok_iff.1 hcheck
    have hspan := le_of_checkFields hrest
    dsimp only at hstart hbits hspan
    have hbytes := bytes_mul_eight hbits
    rw [leavesOfFields, List.mem_append, List.mem_map] at hleaf
    rcases hleaf with ⟨inner, hinner, rfl⟩ | hleaf
    · have := leaf_le hlaid.1 inner hinner
      simp only [Leaf.within]
      omega
    · have := leaf_between hlaid.2 hrest leaf hleaf
      dsimp only at this
      omega
end

theorem pairwise_within {ls : List Leaf} (step : PathStep) (offset : Nat)
    (h : ls.Pairwise Leaf.Before) : (ls.map (Leaf.within step offset)).Pairwise Leaf.Before := by
  refine List.Pairwise.map _ (fun a b hab => ?_) h
  simp only [Leaf.Before, Leaf.within] at hab ⊢
  omega

mutual
theorem leaves_pairwise : ∀ {t : Ty}, t.Laid → t.leaves.Pairwise Leaf.Before
  | primitive _ _, _ => List.pairwise_singleton _ _
  | pointer _, _ => List.pairwise_singleton _ _
  | struct _ _ _, laid => by
    obtain ⟨span, -, hcheck⟩ := laid.checkFields
    exact leavesOfFields_pairwise laid.2 hcheck
  | array element count, _ => by
    refine List.Pairwise.map _ (fun i j hij => ?_) List.pairwise_lt_range
    have hle : (i + 1) * element.bits ≤ j * element.bits := Nat.mul_le_mul_right _ hij
    simpa [Leaf.Before, Leaf.element, Nat.succ_mul] using hle

theorem leavesOfFields_pairwise : ∀ {fields : List (Field Ty)} {name : String} {start span : Nat},
    FieldsLaid fields → StructLayout.checkFields name start fields = .ok span →
    (leavesOfFields fields).Pairwise Leaf.Before
  | [], _, _, _, _, _ => List.Pairwise.nil
  | ⟨name, offset, type⟩ :: rest, _, _, _, hlaid, hcheck => by
    obtain ⟨-, hbits, hrest⟩ := checkFields_cons_eq_ok_iff.1 hcheck
    dsimp only at hbits hrest
    rw [leavesOfFields, List.pairwise_append]
    refine ⟨pairwise_within _ _ (leaves_pairwise hlaid.1),
      leavesOfFields_pairwise hlaid.2 hrest, ?_⟩
    intro a ha b hb
    obtain ⟨inner, hinner, rfl⟩ := List.mem_map.1 ha
    have hle := leaf_le hlaid.1 inner hinner
    have hfrom := (leaf_between hlaid.2 hrest b hb).1
    have hbytes := bytes_mul_eight hbits
    simp only [Leaf.Before, Leaf.within]
    omega
end

end Ty

end BitvectorCode
