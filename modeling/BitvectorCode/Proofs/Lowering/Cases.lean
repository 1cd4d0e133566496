import BitvectorCode.Lowering.Lower
import BitvectorCode.Proofs.Code.Cases

/-!
# What the rules of lowering make

The plain code that the rule of a node makes, written out for each kind of node that has a rule of
its own, and the conditions under which it is made.
-/

namespace BitvectorCode

open Code

namespace Environment

variable {env : Environment} {g : Graph} {e : NodeId} {code left right operand whole plain : Code}
variable {offset width : Nat}

theorem lowerConstant_eq_ok {c : Constant} (h : env.lowerConstant c = .ok plain) :
    ∃ type values, env.types.typeFor c.bits = .ok type ∧ plain = .constant type values := by
  obtain ⟨type, htype, h⟩ := bind_eq_ok_iff.1 h
  cases type with
  | array element count =>
    obtain ⟨elements, -, h⟩ := bind_eq_ok_iff.1 h
    cases h
    exact ⟨_, _, htype, rfl⟩
  | primitive size signed =>
    dsimp only at h
    split at h
    · cases h
      exact ⟨_, _, htype, rfl⟩
    · cases h
  | pointer pointee | struct name fields size => cases h

theorem operand_eq_ok {signed : Bool}
    (h : (if signed then asSigned operand else .ok operand) = .ok plain) :
    (signed = false ∧ plain = operand) ∨
      signed = true ∧ ∃ bits sign, operand.type = .primitive bits sign ∧
        plain = .cast operand (.primitive bits true) := by
  cases signed with
  | false =>
    cases h
    exact .inl ⟨rfl, rfl⟩
  | true =>
    obtain ⟨type, htype, h⟩ := bind_eq_ok_iff.1 h
    cases h
    cases hoperand : operand.type with
    | primitive bits sign =>
      rw [hoperand] at htype
      cases htype
      exact .inr ⟨rfl, bits, sign, rfl, rfl⟩
    | _ =>
      rw [hoperand] at htype
      cases htype

theorem operand_everywhere {p : Code → Prop} {signed : Bool}
    (hp : ∀ inner type, p (.cast inner type)) (ho : operand.Everywhere p)
    (h : (if signed then asSigned operand else .ok operand) = .ok plain) :
    plain.Everywhere p := by
  rcases operand_eq_ok h with ⟨-, rfl⟩ | ⟨-, bits, sign, -, rfl⟩
  · exact ho
  · exact ⟨hp _ _, ho⟩

theorem lowerPacketRead_eq_ok {index : NodeId} {name : String}
    (h : env.lowerPacketRead g index name = .ok plain) :
    ∃ offset start v, env.chunks.lookup offset = some (start, v) ∧
      plain = .read v .byte (.index (offset - start)) := by
  unfold lowerPacketRead at h
  split at h
  · cases h
  · next offset _ =>
    split at h
    · next start v hlookup =>
      cases h
      exact ⟨offset, start, v, hlookup, rfl⟩
    · cases h

theorem isPadding_read {v : Variable} {type : Ty} {i : Code}
    (h : ∀ n, i.value? = some n → n < v.type.bytes) : isPadding (.read v type i) = false := by
  unfold isPadding
  cases hn : i.value? with
  | none => simp [hn]
  | some n => simp [hn, h n hn]

theorem lowerConcat_eq_ok (h : env.lowerConcat g e left right = .ok code) :
    (isPadding left = true ∧ code = right) ∨
      ∃ type, env.types.typeFor (g.width e) = .ok type ∧
        Simplified env.types (.concat left right type) code := by
  unfold lowerConcat at h
  split at h
  · next hpadding =>
    cases h
    exact .inl ⟨hpadding, rfl⟩
  · obtain ⟨type, htype, h⟩ := bind_eq_ok_iff.1 h
    refine .inr ⟨type, htype, ?_⟩
    dsimp only at h
    split at h
    · cases h
      exact .same _
    · exact simplified_of_simplify h

theorem lowerExtract_eq_ok (h : env.lowerExtract whole offset width = .ok plain) :
    ∃ part o, whole.part offset width = .ok (part, o) ∧
      (plain = part ∧ o = 0 ∧ width = part.bits ∨
        ∃ type, env.types.typeFor width = .ok type ∧ part.slice o width type = .ok plain) := by
  obtain ⟨⟨part, o⟩, hpart, h⟩ := bind_eq_ok_iff.1 h
  refine ⟨part, o, hpart, ?_⟩
  dsimp only at h
  split at h
  · next hwhole =>
    cases h
    exact .inl ⟨rfl, hwhole⟩
  · obtain ⟨type, htype, h⟩ := bind_eq_ok_iff.1 h
    exact .inr ⟨type, htype, h⟩

theorem lowerSignExtend_eq_ok (h : env.lowerSignExtend operand width = .ok plain) :
    (operand.bits = width ∧ plain = operand) ∨
      operand.bits ≠ width ∧ width ≤ 64 ∧ ∃ type truth, env.types.typeFor width = .ok type ∧
        env.types.typeFor 1 = .ok truth ∧
        plain = .choose
          (.binary .equals (.binary .shr operand (.scalar operand.type (operand.bits - 1))
            operand.type)
            (.scalar operand.type 1) truth)
          (.binary .or (.cast operand type)
            (.scalar type (wordMask width ^^^ wordMask operand.bits)) type)
          (.cast operand type) := by
  unfold lowerSignExtend at h
  dsimp only at h
  split at h
  · next hsame =>
    cases h
    exact .inl ⟨hsame, rfl⟩
  · next hother =>
    split at h
    · cases h
    · next hword =>
      obtain ⟨type, htype, h⟩ := bind_eq_ok_iff.1 h
      obtain ⟨truth, htruth, h⟩ := bind_eq_ok_iff.1 h
      cases h
      exact .inr ⟨hother, Nat.not_lt.1 hword, type, truth, htype, htruth, rfl⟩

end Environment

end BitvectorCode
