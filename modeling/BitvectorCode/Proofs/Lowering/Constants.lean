import BitvectorCode.Proofs.Code.Constants
import BitvectorCode.Proofs.Lowering.Cases
import BitvectorCode.Proofs.Lowering.Derivation
import BitvectorCode.Proofs.Lowering.Operator

/-!
# Constants in lowered code

Every constant in lowered code has the form of its type, if no array type is declared for a width up
to a word and no primitive for a wider one, and if each node passes a check of its own: a read takes
bytes at indices of 32 bits, an extract lies inside the code of its operand, and the operand of a
sign extension is a narrower value and no array. Wherever an array type is declared for two bytes,
their bits become one value of the array type.
-/

namespace BitvectorCode

open Code

theorem foldElements_induction {ε α : Type} {step : Nat → α → Except ε α} {count : Nat} {a b : α}
    (holds : Nat → α → Prop) (first : holds 0 a)
    (next : ∀ i a b, holds i a → step i a = .ok b → holds (i + 1) b)
    (h : foldElements step count a = .ok b) : holds count b := by
  have walk : ∀ (count start : Nat) (a : α), holds start a →
      foldElementsFrom step start count a = .ok b → holds (start + count) b := by
    intro count
    induction count with
    | zero =>
      intro start a ha h
      cases h
      exact ha
    | succ count ih =>
      intro start a ha h
      obtain ⟨a', ha', h⟩ := bind_eq_ok_iff.1 h
      have := ih (start + 1) a' (next start a a' ha ha') h
      rwa [show start + (count + 1) = start + 1 + count by omega]
  simpa using walk count 0 a first h

namespace Environment

/-- The check of one node: the bytes that it reads are at indices of 32 bits, what it extracts lies
inside the code of its operand, and what it extends is no array and narrower, but not empty, or as
wide as the node. -/
def constantsHold (env : Environment) (g : Graph) (n : NodeId) : Bool :=
  match g.expr n with
  | .read _ _ => (env.lower g n).toOption.all Code.sliceable
  | .extract inner offset width =>
    (env.lower g inner).toOption.all fun whole => offset + width ≤ whole.bits
  | .signExtend inner =>
    (env.lower g inner).toOption.all fun operand =>
      operand.bits = g.width n ∨
        operand.type.isArray = false ∧ 0 < operand.bits ∧ operand.bits < g.width n
  | _ => true

variable {env : Environment} {g : Graph} {e inner : NodeId}
    {code plain operand left right whole : Code}
variable {offset width : Nat}

theorem Lowers.sliceable_of_read (h : env.Lowers g e code) (wf : g.WellFormed)
    (he : e < g.size) {r : RootId} {index : NodeId} (hx : g.expr e = .read r index)
    (hin : env.constantsHold g e = true) :
    code.sliceable = true := by
  simpa [constantsHold, hx, h.lower_eq_ok wf he, Except.toOption] using hin

theorem Lowers.inside_of_extract (h : env.Lowers g inner whole) (wf : g.WellFormed)
    (he : e < g.size) (hx : g.expr e = .extract inner offset width)
    (hin : env.constantsHold g e = true) :
    offset + width ≤ whole.bits := by
  have hinner := h.lower_eq_ok wf (wf.child_lt_size he (by simp [hx, Expr.children]))
  simpa [constantsHold, hx, hinner, Except.toOption] using hin

theorem Lowers.narrower_of_signExtend (h : env.Lowers g inner operand)
    (wf : g.WellFormed) (he : e < g.size) (hx : g.expr e = .signExtend inner)
    (hin : env.constantsHold g e = true) :
    operand.bits = g.width e ∨
      operand.type.isArray = false ∧ 0 < operand.bits ∧ operand.bits < g.width e := by
  have hinner := h.lower_eq_ok wf (wf.child_lt_size he (by simp [hx, Expr.children]))
  simpa [constantsHold, hx, hinner, Except.toOption] using hin

theorem simplifyRead_of_sliceable {v : Variable} {type : Ty} {index : Code}
    (hindex : (Code.read v type index).sliceable = true → index.Everywhere ConstantFits)
    (h : (simplifyRead v type index).sliceable = true) :
    (simplifyRead v type index).HoldsConstants := by
  unfold simplifyRead at h ⊢
  split at h
  · next hwhole =>
    rw [if_pos hwhole]
    exact ⟨trivial, h⟩
  · next hpart =>
    rw [if_neg hpart]
    exact ⟨⟨trivial, hindex h⟩, h⟩

section

variable (sized : env.types.Sized) (hs : env.types.SplitsAtWord)
include sized hs

theorem lowerConstant_holdsConstants {c : Constant} (hc : c.Valid)
    (h : env.lowerConstant c = .ok plain) :
    plain.HoldsConstants := by
  obtain ⟨type, htype, h⟩ := bind_eq_ok_iff.1 h
  have hbits := sized.bits_typeFor htype
  cases type with
  | array element count =>
    obtain ⟨elements, helements, h⟩ := bind_eq_ok_iff.1 h
    cases h
    have hall : elements.size = count ∧ ∀ n ∈ elements, n < 2 ^ element.bits := by
      refine foldElements_induction
        (fun i found => found.size = i ∧ ∀ n ∈ found, n < 2 ^ element.bits)
        ⟨rfl, by simp⟩ ?_ helements
      intro i found found' hfound hstep
      obtain ⟨digit, hdigit, hstep⟩ := bind_eq_ok_iff.1 hstep
      unfold Constant.extract at hdigit
      split at hdigit
      · cases hdigit
      · cases hdigit
        split at hstep
        · next value hvalue =>
          cases hstep
          obtain ⟨-, rfl⟩ := Constant.word?_eq_some_iff.1 hvalue
          have hlt : (c.slice (i * element.bits) element.bits).value < 2 ^ element.bits :=
            Constant.slice_valid
          refine ⟨by simp [hfound.1], fun n hn => ?_⟩
          rcases Array.mem_push.1 hn with hn | rfl
          · exact hfound.2 n hn
          · exact hlt
        · cases hstep
    exact ⟨⟨by simpa using hall.1, by simpa using hall.2⟩, rfl⟩
  | primitive size signed =>
    have hword := hs.le_of_isPrimitive htype rfl
    dsimp only at h
    split at h
    · next value hvalue =>
      cases h
      obtain ⟨-, rfl⟩ := Constant.word?_eq_some_iff.1 hvalue
      exact scalar_holdsConstants sized hs hword htype hc
    · cases h
  | pointer pointee | struct name fields size => cases h

theorem lowerConcat_holdsConstants (hl : left.HoldsConstants) (hr : right.HoldsConstants)
    (h : env.lowerConcat g e left right = .ok code) : code.HoldsConstants := by
  rcases lowerConcat_eq_ok h with ⟨-, rfl⟩ | ⟨type, -, hcode⟩
  · exact hr
  · have hconcat : (concat left right type).HoldsConstants :=
      ⟨⟨trivial, hl.fits, hr.fits⟩, rfl, hl.surface, hr.surface⟩
    exact simplified_holdsConstants sized hs hconcat hcode

theorem lowerExtract_holdsConstants (hw : whole.HoldsConstants) (hpos : 0 < width)
    (hin : offset + width ≤ whole.bits) (h : env.lowerExtract whole offset width = .ok plain) :
    plain.HoldsConstants := by
  obtain ⟨part, o, hpart, h⟩ := lowerExtract_eq_ok h
  obtain ⟨hholds, hinside⟩ := hw.part hin hpart
  rcases h with ⟨rfl, -⟩ | ⟨type, htype, hslice⟩
  · exact hholds
  · exact sliced_holdsConstants sized hs hholds hpos hinside htype (sliced_of_slice hslice)

theorem lowerSignExtend_holdsConstants (ho : operand.HoldsConstants)
    (hin : operand.bits = width ∨
      operand.type.isArray = false ∧ 0 < operand.bits ∧ operand.bits < width)
    (h : env.lowerSignExtend operand width = .ok plain) : plain.HoldsConstants := by
  rcases lowerSignExtend_eq_ok h with ⟨-, rfl⟩ | ⟨hother, hword, type, truth, htype, -, rfl⟩
  · exact ho
  obtain ⟨harray, hpos, hlt⟩ := hin.resolve_left hother
  have hamount : (scalar operand.type (operand.bits - 1)).ConstantFits :=
    constantFits_scalar harray (Nat.lt_of_le_of_lt (Nat.sub_le _ _) Nat.lt_two_pow_self)
  have hone : (scalar operand.type 1).ConstantFits :=
    constantFits_scalar harray (Nat.one_lt_two_pow (Nat.ne_of_gt hpos))
  have hmask : wordMask width ^^^ wordMask operand.bits < 2 ^ width :=
    Nat.xor_lt_two_pow (wordMask_lt (Nat.le_refl _)) (wordMask_lt (Nat.le_of_lt hlt))
  have hones := scalar_holdsConstants sized hs hword htype hmask
  exact ⟨⟨trivial, ⟨trivial, ⟨trivial, ho.fits, hamount⟩, hone⟩,
    ⟨trivial, ⟨trivial, ho.fits⟩, hones.fits⟩, trivial, ho.fits⟩, rfl⟩

/-- Every rule keeps the form of constants, and what slices need of their operand. -/
theorem Lowers.holdsConstants (wf : g.WellFormed) (he : e < g.size)
    (inside : ∀ n, g.Reaches e n → env.constantsHold g n = true) (h : env.Lowers g e code) :
    code.HoldsConstants := by
  induction h with
  | constant hx hplain hcode =>
    have hplain := lowerConstant_holdsConstants sized hs (wf.constant_valid he hx) hplain
    exact simplified_holdsConstants sized hs hplain (simplified_of_simplify hcode)
  | packetRead hx hname hplain hcode =>
    have hread :=
      (Lowers.packetRead hx hname hplain hcode).sliceable_of_read wf he hx (inside _ (.refl _))
    obtain ⟨offset, start, v, -, rfl⟩ := lowerPacketRead_eq_ok hplain
    cases hcode
    refine simplifyRead_of_sliceable (fun hplace => ?_) hread
    have hplace : 8 * (offset - start) + 8 ≤ 8 * 2 ^ 32 := of_decide_eq_true hplace
    exact constantFits_scalar rfl (show offset - start < 2 ^ 32 by omega)
  | symbolRead hx hname hv hindex hcode ih =>
    have hread :=
      (Lowers.symbolRead hx hname hv hindex hcode).sliceable_of_read wf he hx (inside _ (.refl _))
    cases hcode
    refine simplifyRead_of_sliceable (fun _ => ?_) hread
    exact (ih (wf.child_lt_size he (by simp [hx, Expr.children]))
      fun n hr => inside n (.of_child (by simp [hx, Expr.children]) hr)).fits
  | localRead hx hname hnone hv =>
    exact ⟨trivial, (Lowers.localRead hx hname hnone hv).sliceable_of_read
      wf he hx (inside _ (.refl _))⟩
  | concat hx hleft hright hcode ihl ihr =>
    have hl := ihl (wf.child_lt_size he (by simp [hx, Expr.children]))
      fun n hr => inside n (.of_child (by simp [hx, Expr.children]) hr)
    have hr := ihr (wf.child_lt_size he (by simp [hx, Expr.children]))
      fun n hr => inside n (.of_child (by simp [hx, Expr.children]) hr)
    exact lowerConcat_holdsConstants sized hs hl hr hcode
  | @extract e inner offset width whole plain code hx haligned hinner hplain hcode ih =>
    have hchild : inner ∈ (g.expr e).children := by simp [hx, Expr.children]
    have hw := ih (wf.child_lt_size he hchild) fun n hr => inside n (.of_child hchild hr)
    have hpos : 0 < width := by
      have := wf.sortRule he
      rw [hx] at this
      exact this.2.1
    have hin := hinner.inside_of_extract wf he hx (inside e (.refl e))
    have hplain := lowerExtract_holdsConstants sized hs hw hpos hin hplain
    exact simplified_holdsConstants sized hs hplain (simplified_of_simplify hcode)
  | @zeroExtend e inner operand code type hx hinner htype hcode ih =>
    have hchild : inner ∈ (g.expr e).children := by simp [hx, Expr.children]
    have ho := ih (wf.child_lt_size he hchild) fun n hr => inside n (.of_child hchild hr)
    have hcast : (cast operand type).HoldsConstants := ⟨⟨trivial, ho.fits⟩, rfl, ho.surface⟩
    exact simplified_holdsConstants sized hs hcast (simplified_of_simplify hcode)
  | @signExtend e inner operand plain code hx hinner hplain hcode ih =>
    have hchild : inner ∈ (g.expr e).children := by simp [hx, Expr.children]
    have ho := ih (wf.child_lt_size he hchild) fun n hr => inside n (.of_child hchild hr)
    have hin := hinner.narrower_of_signExtend wf he hx (inside e (.refl e))
    have hplain := lowerSignExtend_holdsConstants sized hs ho hin hplain
    exact simplified_holdsConstants sized hs hplain (simplified_of_simplify hcode)
  | @not e inner operand hx hinner ih =>
    have hchild : inner ∈ (g.expr e).children := by simp [hx, Expr.children]
    have ho := ih (wf.child_lt_size he hchild) fun n hr => inside n (.of_child hchild hr)
    exact ⟨⟨trivial, ho.fits⟩, rfl⟩
  | @binary e lhs rhs op left right plain code hx hleft hright hplain hcode ihl ihr =>
    have hlhs : lhs ∈ (g.expr e).children := by simp [hx, Expr.children]
    have hrhs : rhs ∈ (g.expr e).children := by simp [hx, Expr.children]
    have hl := ihl (wf.child_lt_size he hlhs) fun n hr => inside n (.of_child hlhs hr)
    have hr := ihr (wf.child_lt_size he hrhs) fun n hr => inside n (.of_child hrhs hr)
    obtain ⟨type, left', -, hleft', rfl⟩ := lowerBinary_eq_ok hplain
    cases hcode
    exact ⟨⟨trivial, operand_everywhere (fun _ _ => trivial) hl.fits hleft', hr.fits⟩, rfl⟩
  | @doubled e lhs rhs x op operand code hx hdouble hinner hcode ih =>
    have hrhs : rhs ∈ (g.expr e).children := by simp [hx, Expr.children]
    have hchild := Graph.mem_children_of_doubleComplement? hdouble
    have ho := ih (wf.child_lt_size (wf.child_lt_size he hrhs) hchild)
      fun n hr => inside n (.of_child hrhs (.of_child hchild hr))
    exact simplified_holdsConstants sized hs ho (simplified_of_simplify hcode)
  | @compare e lhs rhs op left right plain code hx hsingle hleft hright hplain hcode ihl ihr =>
    have hlhs : lhs ∈ (g.expr e).children := by simp [hx, Expr.children]
    have hrhs : rhs ∈ (g.expr e).children := by simp [hx, Expr.children]
    have hl := ihl (wf.child_lt_size he hlhs) fun n hr => inside n (.of_child hlhs hr)
    have hr := ihr (wf.child_lt_size he hrhs) fun n hr => inside n (.of_child hrhs hr)
    obtain ⟨type, left', right', -, hleft', hright', rfl⟩ := lowerCompare_eq_ok hplain
    cases hcode
    exact ⟨⟨trivial, operand_everywhere (fun _ _ => trivial) hl.fits hleft',
      operand_everywhere (fun _ _ => trivial) hr.fits hright'⟩, rfl⟩
  | @select e cond ifTrue ifFalse c t f hx hcond htrue hfalse ihc iht ihf =>
    have hc : cond ∈ (g.expr e).children := by simp [hx, Expr.children]
    have ht : ifTrue ∈ (g.expr e).children := by simp [hx, Expr.children]
    have hf : ifFalse ∈ (g.expr e).children := by simp [hx, Expr.children]
    have hcond := ihc (wf.child_lt_size he hc) fun n hr => inside n (.of_child hc hr)
    have htrue := iht (wf.child_lt_size he ht) fun n hr => inside n (.of_child ht hr)
    have hfalse := ihf (wf.child_lt_size he hf) fun n hr => inside n (.of_child hf hr)
    exact ⟨⟨trivial, hcond.fits, htrue.fits, hfalse.fits⟩, rfl⟩

/-- Every constant in lowered code holds one value, or one for each element of its array type, and
each value fits the type or the element. -/
theorem lower_constantFits (wf : g.WellFormed) (he : e < g.size)
    (inside : ∀ n, g.Reaches e n → env.constantsHold g n = true) (h : env.lower g e = .ok code) :
    code.Everywhere ConstantFits :=
  ((lowers_of_lower wf he h).holdsConstants sized hs wf he inside).fits

end

/-- Two elements of a constant array, taken out as a word, plus a byte of a field as a word with its
sign. -/
theorem lower_constantFits_of_array_slice :
    let header : Variable := ⟨"header", .signed 16⟩
    let types : TypeContext := ⟨({} : Std.TreeMap Nat Ty).insert 128 (.array (.unsigned 32) 4)⟩
    let env : Environment := { symbols := ({} : SymbolTable).declare "header" header, types }
    let g : Graph :=
      { nodes := #[⟨.constant ⟨0x111122223333444455556666, 128⟩, 128⟩, ⟨.extract 0 32 64, 64⟩,
          ⟨.constant ⟨1, 32⟩, 32⟩, ⟨.read 0 2, 8⟩, ⟨.signExtend 3, 64⟩, ⟨.binary .add 1 4, 64⟩]
        roots := #[.symbolic "header" 2] }
    let word : Ty := .unsigned 64
    let high : Code := .read header .byte (.index 1)
    let isNegative : Code :=
      .binary .equals (.binary .shr high (.scalar .byte 7) .byte) (.scalar .byte 1) (.unsigned 1)
    let negative : Code := .binary .or (.cast high word) (.scalar word 0xffffffffffffff00) word
    let sum : Code :=
      .binary .add (.scalar word 0x1111222233334444) (.choose isNegative negative (.cast high word))
        word
    ({} : TypeContext).declare 128 (.array (.unsigned 32) 4) = .ok types ∧
      types.Sized ∧ types.SplitsAtWord ∧
      g.WellFormed ∧ 5 < g.size ∧ (∀ n, g.Reaches 5 n → env.constantsHold g n = true) ∧
      env.lower g 5 = .ok sum ∧ sum.Everywhere ConstantFits := by
  intro header types env g word high isNegative negative sum
  have declared : ({} : TypeContext).declare 128 (.array (.unsigned 32) 4) = .ok types := rfl
  have sized : types.Sized := TypeContext.sized_empty.declare declared
  have splits : types.SplitsAtWord :=
    TypeContext.splitsAtWord_empty.declare (by decide) (by decide) declared
  have wf : g.WellFormed := by decide +kernel
  have he : 5 < g.size := by decide
  have check : ∀ n < g.size, env.constantsHold g n = true := by decide +kernel
  have inside : ∀ n, g.Reaches 5 n → env.constantsHold g n = true :=
    fun n hr => check n (hr.lt_size wf he)
  have lowered : env.lower g 5 = .ok sum := by decide +kernel
  exact ⟨declared, sized, splits, wf, he, inside, lowered,
    lower_constantFits sized splits wf he inside lowered⟩

/-- An array of two bytes is declared for 16 bits, and the low half of a constant of 32 bits is
taken: the array type gets one value, of 16 bits. -/
theorem lower_half_of_constant_to_two_bytes :
    let bytes : Ty := .array .byte 2
    let types : TypeContext := ⟨({} : Std.TreeMap Nat Ty).insert 16 bytes⟩
    let env : Environment := { types }
    let g : Graph :=
      { nodes := #[⟨.constant ⟨0x11223344, 32⟩, 32⟩, ⟨.extract 0 0 16, 16⟩], roots := #[] }
    ({} : TypeContext).declare 16 bytes = .ok types ∧ g.WellFormed ∧ 1 < g.size ∧
      env.lower g 1 = .ok (.constant bytes [0x3344]) ∧
      ¬ (Code.constant bytes [0x3344]).Everywhere ConstantFits := by
  intro bytes types env g
  refine ⟨rfl, by decide +kernel, by decide, by decide +kernel, fun h => ?_⟩
  exact absurd h.1 (by decide)

end Environment

end BitvectorCode
