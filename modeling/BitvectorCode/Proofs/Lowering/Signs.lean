import BitvectorCode.Proofs.Lowering.Cases
import BitvectorCode.Proofs.Lowering.Derivation
import BitvectorCode.Proofs.Lowering.Operator

/-!
# Signs in lowered code

Division, right shifts and orderings mean one thing for signed operands and another for unsigned
ones, and so does a cast to a wider type. Lowering makes the operands of the signed operators
signed, and leaves all others as they are: these are unsigned unless a declared type is signed, or a
signed variable has all the bits of an expression and stands for it.
-/

namespace BitvectorCode

open Code

/-- What the operator makes of its operands depends on whether they are signed. -/
def CodeOp.readsSign : CodeOp → Bool
  | div | mod | shr | less | lessEq | greater | greaterEq => true
  | _ => false

def Code.readsSign : Code → Bool
  | binary op _ _ _ => op.readsSign
  | _ => false

def TypeContext.Unsigned (types : TypeContext) : Prop :=
  ∀ (width : Nat) (type : Ty), types.overrides[width]? = some type → type.isSigned = false

theorem TypeContext.Unsigned.typeFor {types : TypeContext} (hu : types.Unsigned) {width : Nat}
    {type : Ty} (h : types.typeFor width = .ok type) : type.isSigned = false := by
  unfold TypeContext.typeFor at h
  split at h
  · next known =>
    cases h
    exact hu width type known
  · split at h
    · cases h
    · split at h
      · cases h
        rfl
      · split at h
        · cases h
          rfl
        · cases h

def Expr.readsSigned : Expr → Bool
  | binary op _ _ => op.isSigned
  | compare op _ _ => op.isSigned
  | _ => false

/-- Code that is built for an expression node has its operator, with operands that are signed if the
node reads them as signed, and unsigned if not. The shifts built for extracts and for the sign test
of sign extensions have unsigned left operands, and the casts built for zero extensions unsigned
operands. -/
def Expr.KeepsSign : Expr → Code → Prop
  | binary op _ _, .binary built left _ _ =>
    built = op.codeOp ∧ (built.readsSign = true → left.type.isSigned = op.isSigned)
  | compare op _ _, .binary built left right _ =>
    built = op.codeOp ∧ (built.readsSign = true →
      left.type.isSigned = op.isSigned ∧ right.type.isSigned = op.isSigned)
  | extract _ _ _, .binary built left _ _ | signExtend _, .binary built left _ _ =>
    built = .shr ∧ left.type.isSigned = false
  | zeroExtend _, .cast operand _ => operand.type.isSigned = false
  | _, _ => False

namespace Environment

/-- `built` is an operator or a cast that the rule of the node `n` puts on top of the codes of the
nodes below: the operator of an operator node, the cast of a zero extension, the shift of an extract
that does not start at the lowest bit, and the shift that tests the sign of an operand that is
extended. -/
inductive Builds (env : Environment) (g : Graph) : NodeId → Code → Prop
  | binary {n lhs rhs : NodeId} {op : BinaryOp} {left right built : Code}
      (hx : g.expr n = .binary op lhs rhs) (hleft : env.lower g lhs = .ok left)
      (hright : env.lower g rhs = .ok right)
      (hbuilt : env.lowerBinary op left right (g.width n) = .ok built) :
      Builds env g n built
  | compare {n lhs rhs : NodeId} {op : CompareOp} {left right built : Code}
      (hx : g.expr n = .compare op lhs rhs)
      (hsingle : g.doubleComplement? (.compare op lhs rhs) = none)
      (hleft : env.lower g lhs = .ok left) (hright : env.lower g rhs = .ok right)
      (hbuilt : env.lowerCompare op left right = .ok built) : Builds env g n built
  | zeroExtend {n inner : NodeId} {operand : Code} {type : Ty} (hx : g.expr n = .zeroExtend inner)
      (hinner : env.lower g inner = .ok operand)
      (htype : env.types.typeFor (g.width n) = .ok type) :
      Builds env g n (.cast operand type)
  | extract {n inner : NodeId} {offset width o : Nat} {whole part operand amount mask : Code}
      {target type type' : Ty} (hx : g.expr n = .extract inner offset width)
      (hinner : env.lower g inner = .ok whole) (hpart : whole.part offset width = .ok (part, o))
      (hoffset : 0 < o) (htype : env.types.typeFor width = .ok target)
      (hslice : part.slice o width target =
        .ok (.cast (.binary .and (.binary .shr operand amount type) mask type') target)) :
      Builds env g n (.binary .shr operand amount type)
  | signTest {n inner : NodeId} {operand left amount one negative extended : Code}
      {type type' result : Ty} (hx : g.expr n = .signExtend inner)
      (hinner : env.lower g inner = .ok operand) (hwider : operand.bits ≠ g.width n)
      (hplain : env.lowerSignExtend operand (g.width n) =
        .ok (.select (.binary .equals (.binary .shr left amount type) one type')
          negative extended result)) :
      Builds env g n (.binary .shr left amount type)

variable {env : Environment} {g : Graph} {e n : NodeId}
    {code plain new built left right operand : Code}

theorem operand_isSigned {signed : Bool}
    (h : (if signed then asSigned left else .ok left) = .ok new)
    (hleft : signed = false → left.type.isSigned = false) : new.type.isSigned = signed := by
  rcases operand_eq_ok h with ⟨rfl, rfl⟩ | ⟨rfl, bits, sign, -, rfl⟩
  · exact hleft rfl
  · rfl

theorem Builds.keepsSign_of_readsSigned (h : env.Builds g n built)
    (hs : (g.expr n).readsSigned = true) :
    (g.expr n).KeepsSign built := by
  cases h with
  | binary hx hleft hright hbuilt =>
    obtain ⟨type, left', -, hleft', rfl⟩ := lowerBinary_eq_ok hbuilt
    rw [hx] at hs ⊢
    exact ⟨rfl, fun _ =>
      operand_isSigned hleft' fun hu => absurd hs (by simp [Expr.readsSigned, hu])⟩
  | compare hx hsingle hleft hright hbuilt =>
    obtain ⟨type, left', right', -, hleft', hright', rfl⟩ := lowerCompare_eq_ok hbuilt
    rw [hx] at hs ⊢
    exact ⟨rfl, fun _ =>
      ⟨operand_isSigned hleft' fun hu => absurd hs (by simp [Expr.readsSigned, hu]),
        operand_isSigned hright' fun hu => absurd hs (by simp [Expr.readsSigned, hu])⟩⟩
  | zeroExtend hx | extract hx | signTest hx =>
    rw [hx] at hs
    cases hs

/-- The type of the code, and of the parts of it that can come to the top, is unsigned. -/
abbrev UnsignedSurface (code : Code) : Prop := code.Surface fun part => part.type.isSigned = false

section Unsigned

variable (hu : env.types.Unsigned)
include hu

theorem simplified_unsigned (h : UnsignedSurface plain)
    (hv : ∀ v, code = .var v → v.type.isSigned = false) (hs : Simplified env.types plain code) :
    UnsignedSurface code := by
  have hread : ∀ (v : Variable) (type : Ty) (index : Code), type.isSigned = false →
      code = simplifyRead v type index → UnsignedSurface code := by
    intro v type index htype hcode
    unfold simplifyRead at hcode
    split at hcode
    · exact hcode ▸ hv v hcode
    · exact hcode ▸ htype
  cases hs with
  | same => exact h
  | read v type index => exact hread v type index h rfl
  | merged hbytes hleft hright hboth => exact hread _ _ _ (hu.typeFor hboth) rfl
  | joined hleft hright hword hboth => exact hu.typeFor hboth
  | uncast inner => exact h.2

theorem lowerExtract_unsigned {whole : Code} {offset width : Nat} (h : UnsignedSurface whole)
    (hplain : env.lowerExtract whole offset width = .ok plain) : UnsignedSurface plain := by
  obtain ⟨part, o, hpart, hplain⟩ := lowerExtract_eq_ok hplain
  have hp : UnsignedSurface part := h.part hpart
  rcases hplain with ⟨rfl, -⟩ | ⟨type, htype, hslice⟩
  · exact hp
  have htarget := hu.typeFor htype
  cases sliced_of_slice hslice with
  | var v | read hstart => exact htarget
  | constant hnew =>
    obtain ⟨values, rfl⟩ := sliceConstant_eq_ok hnew
    exact htarget
  | shifted hprimitive hoffset => exact ⟨htarget, hp.self⟩
  | cut hprimitive hoffset => exact ⟨htarget, hp⟩

theorem Lowers.unsigned (wf : g.WellFormed) (he : e < g.size)
    (hv : ∀ n, g.Reaches e n → ∀ v, env.lower g n = .ok (.var v) → v.type.isSigned = false)
    (h : env.Lowers g e code) : UnsignedSurface code := by
  have top : ∀ {n c}, n < g.size → (∀ v, env.lower g n = .ok (.var v) → v.type.isSigned = false) →
      env.Lowers g n c → ∀ v, c = .var v → v.type.isSigned = false := by
    rintro n c hn hnode hlowers v rfl
    exact hnode v (hlowers.lower_eq_ok wf hn)
  induction h with
  | @constant e c plain code hx hplain hcode =>
    have hvar := top he (hv e (.refl e)) (.constant hx hplain hcode)
    obtain ⟨type, values, htype, rfl⟩ := lowerConstant_eq_ok hplain
    have hconstant : UnsignedSurface (.constant type values) := hu.typeFor htype
    exact simplified_unsigned hu hconstant hvar (simplified_of_simplify hcode)
  | @packetRead e r index plain code hx hname hplain hcode =>
    have hvar := top he (hv e (.refl e)) (.packetRead hx hname hplain hcode)
    obtain ⟨offset, start, v, -, rfl⟩ := lowerPacketRead_eq_ok hplain
    have hread : UnsignedSurface (.read v .byte (.index (offset - start))) := rfl
    exact simplified_unsigned hu hread hvar (simplified_of_simplify hcode)
  | @symbolRead e r index v i code hx hname hsymbol hindex hcode ih =>
    have hvar := top he (hv e (.refl e)) (.symbolRead hx hname hsymbol hindex hcode)
    have hread : UnsignedSurface (.read v .byte i) := rfl
    exact simplified_unsigned hu hread hvar (simplified_of_simplify hcode)
  | @localRead e r index v hx hname hnone hlocal =>
    exact top he (hv e (.refl e)) (.localRead hx hname hnone hlocal) v rfl
  | @concat e high low left right code hx hleft hright hcode ihl ihr =>
    have hvar := top he (hv e (.refl e)) (.concat hx hleft hright hcode)
    have hhigh : high ∈ (g.expr e).children := by simp [hx, Expr.children]
    have hlow : low ∈ (g.expr e).children := by simp [hx, Expr.children]
    have hl := ihl (wf.child_lt_size he hhigh) fun n hr => hv n (.of_child hhigh hr)
    have hr := ihr (wf.child_lt_size he hlow) fun n hr => hv n (.of_child hlow hr)
    rcases lowerConcat_eq_ok hcode with ⟨-, rfl⟩ | ⟨type, htype, hcode⟩
    · exact hr
    · have hconcat : UnsignedSurface (.concat left right type) := ⟨hu.typeFor htype, hl, hr⟩
      exact simplified_unsigned hu hconcat hvar hcode
  | @extract e inner offset width whole plain code hx haligned hinner hplain hcode ih =>
    have hvar := top he (hv e (.refl e)) (.extract hx haligned hinner hplain hcode)
    have hchild : inner ∈ (g.expr e).children := by simp [hx, Expr.children]
    have hw := ih (wf.child_lt_size he hchild) fun n hr => hv n (.of_child hchild hr)
    exact simplified_unsigned hu (lowerExtract_unsigned hu hw hplain) hvar
      (simplified_of_simplify hcode)
  | @zeroExtend e inner operand code type hx hinner htype hcode ih =>
    have hvar := top he (hv e (.refl e)) (.zeroExtend hx hinner htype hcode)
    have hchild : inner ∈ (g.expr e).children := by simp [hx, Expr.children]
    have ho := ih (wf.child_lt_size he hchild) fun n hr => hv n (.of_child hchild hr)
    have hcast : UnsignedSurface (.cast operand type) := ⟨hu.typeFor htype, ho⟩
    exact simplified_unsigned hu hcast hvar (simplified_of_simplify hcode)
  | @signExtend e inner operand plain code hx hinner hplain hcode ih =>
    have hvar := top he (hv e (.refl e)) (.signExtend hx hinner hplain hcode)
    have hchild : inner ∈ (g.expr e).children := by simp [hx, Expr.children]
    have ho := ih (wf.child_lt_size he hchild) fun n hr => hv n (.of_child hchild hr)
    have hplain : UnsignedSurface plain := by
      rcases lowerSignExtend_eq_ok hplain with ⟨-, rfl⟩ | ⟨-, -, type, truth, htype, -, rfl⟩
      · exact ho
      · exact hu.typeFor htype
    exact simplified_unsigned hu hplain hvar (simplified_of_simplify hcode)
  | @not e inner operand hx hinner ih =>
    have hchild : inner ∈ (g.expr e).children := by simp [hx, Expr.children]
    exact (ih (wf.child_lt_size he hchild) fun n hr => hv n (.of_child hchild hr)).self
  | binary hx hleft hright hplain hcode =>
    obtain ⟨type, left', htype, -, rfl⟩ := lowerBinary_eq_ok hplain
    cases hcode
    exact hu.typeFor htype
  | @doubled e lhs rhs x op operand code hx hdouble hinner hcode ih =>
    have hvar := top he (hv e (.refl e)) (.doubled hx hdouble hinner hcode)
    have hrhs : rhs ∈ (g.expr e).children := by simp [hx, Expr.children]
    have hchild := Graph.mem_children_of_doubleComplement? hdouble
    have ho := ih (wf.child_lt_size (wf.child_lt_size he hrhs) hchild)
      fun n hr => hv n (.of_child hrhs (.of_child hchild hr))
    exact simplified_unsigned hu ho hvar (simplified_of_simplify hcode)
  | compare hx hsingle hleft hright hplain hcode =>
    obtain ⟨type, left', right', htype, -, -, rfl⟩ := lowerCompare_eq_ok hplain
    cases hcode
    exact hu.typeFor htype
  | @select e cond ifTrue ifFalse c t f hx hcond htrue hfalse ihc iht ihf =>
    have hchild : ifTrue ∈ (g.expr e).children := by simp [hx, Expr.children]
    exact (iht (wf.child_lt_size he hchild) fun n hr => hv n (.of_child hchild hr)).self

/-- Where nothing signed is declared that stands for an expression, all code that is built keeps its
sign. -/
theorem Builds.keepsSign (wf : g.WellFormed) (hn : n < g.size)
    (hv : ∀ x, g.Reaches n x → ∀ v, env.lower g x = .ok (.var v) → v.type.isSigned = false)
    (h : env.Builds g n built) : (g.expr n).KeepsSign built := by
  have child : ∀ x ∈ (g.expr n).children, ∀ c, env.lower g x = .ok c → UnsignedSurface c := by
    intro x hx c hc
    have hlt := wf.child_lt_size hn hx
    exact (lowers_of_lower wf hlt hc).unsigned hu wf hlt fun y hr => hv y (.of_child hx hr)
  cases h with
  | @binary lhs rhs op left right built hx hleft hright hbuilt =>
    have hl := child lhs (by simp [hx, Expr.children]) left hleft
    obtain ⟨type, left', -, hleft', rfl⟩ := lowerBinary_eq_ok hbuilt
    rw [hx]
    exact ⟨rfl, fun _ => operand_isSigned hleft' fun _ => hl.self⟩
  | @compare lhs rhs op left right built hx hsingle hleft hright hbuilt =>
    have hl := child lhs (by simp [hx, Expr.children]) left hleft
    have hr := child rhs (by simp [hx, Expr.children]) right hright
    obtain ⟨type, left', right', -, hleft', hright', rfl⟩ := lowerCompare_eq_ok hbuilt
    rw [hx]
    exact ⟨rfl, fun _ => ⟨operand_isSigned hleft' fun _ => hl.self,
      operand_isSigned hright' fun _ => hr.self⟩⟩
  | @zeroExtend inner operand type hx hinner htype =>
    have ho := child inner (by simp [hx, Expr.children]) operand hinner
    rw [hx]
    exact ho.self
  | @extract inner offset width o whole part operand amount mask target type type' hx hinner hpart
      hoffset htype hslice =>
    have hw := child inner (by simp [hx, Expr.children]) whole hinner
    have hp : UnsignedSurface part := hw.part hpart
    rw [hx]
    cases sliced_of_slice hslice with
    | constant hnew =>
      obtain ⟨values, hconstant⟩ := sliceConstant_eq_ok hnew
      cases hconstant
    | shifted hprimitive hpos => exact ⟨rfl, hp.self⟩
    | cut hprimitive hzero => exact absurd hzero (Nat.ne_of_gt hoffset)
  | @signTest inner operand left amount one negative extended type type' result hx hinner hwider
      hplain =>
    have ho := child inner (by simp [hx, Expr.children]) operand hinner
    rw [hx]
    rcases lowerSignExtend_eq_ok hplain with ⟨hsame, -⟩ | ⟨-, -, _, _, -, -, hcode⟩
    · exact absurd hsame hwider
    · cases hcode
      exact ⟨rfl, ho.self⟩

end Unsigned

section Traced

/-- If the sign of operands matters to the part, it was built for a node below `e`. -/
def Traced (env : Environment) (g : Graph) (e : NodeId) (part : Code) : Prop :=
  part.readsSign = true → ∃ n, g.Reaches e n ∧ env.Builds g n part

theorem traced_of_not_readsSign (part : Code) (h : part.readsSign = false) : Traced env g e part :=
  fun hpart => absurd hpart (by simp [h])

theorem Traced.of_child {child : NodeId} {part : Code} (hc : child ∈ (g.expr e).children)
    (h : Traced env g child part) : Traced env g e part := by
  intro hpart
  obtain ⟨n, hr, hbuilt⟩ := h hpart
  exact ⟨n, .of_child hc hr, hbuilt⟩

theorem simplified_traced (h : plain.Everywhere (Traced env g e))
    (hs : Simplified env.types plain code) :
    code.Everywhere (Traced env g e) := by
  have silent : ∀ part : Code, part.readsSign = false → Traced env g e part :=
    traced_of_not_readsSign
  cases hs with
  | same => exact h
  | read v type index =>
    unfold simplifyRead
    split
    · exact silent _ rfl
    · exact h
  | merged hbytes hleft hright hboth =>
    unfold simplifyRead
    split
    · exact silent _ rfl
    · exact ⟨silent _ rfl, silent _ rfl⟩
  | joined hleft hright hword hboth => exact silent _ rfl
  | uncast inner => exact h.2

theorem lowerExtract_traced {inner : NodeId} {offset width : Nat} {whole : Code}
    (hx : g.expr e = .extract inner offset width) (hinner : env.lower g inner = .ok whole)
    (h : whole.Everywhere (Traced env g e))
    (hplain : env.lowerExtract whole offset width = .ok plain) :
    plain.Everywhere (Traced env g e) := by
  have silent : ∀ part : Code, part.readsSign = false → Traced env g e part :=
    traced_of_not_readsSign
  obtain ⟨part, o, hpart, hplain⟩ := lowerExtract_eq_ok hplain
  have hp : part.Everywhere (Traced env g e) := h.part hpart
  rcases hplain with ⟨rfl, -⟩ | ⟨type, htype, hslice⟩
  · exact hp
  cases sliced_of_slice hslice with
  | var v | read hstart => exact ⟨silent _ rfl, silent _ rfl⟩
  | constant hnew =>
    obtain ⟨values, rfl⟩ := sliceConstant_eq_ok hnew
    exact silent _ rfl
  | shifted hprimitive hoffset =>
    have hshift : Traced env g e (.binary .shr part (.scalar part.type o) part.type) :=
      fun _ => ⟨e, .refl e, .extract hx hinner hpart hoffset htype hslice⟩
    exact ⟨silent _ rfl, silent _ rfl, ⟨hshift, hp, silent _ rfl⟩, silent _ rfl⟩
  | cut hprimitive hoffset => exact ⟨silent _ rfl, hp⟩

theorem lowerSignExtend_traced {inner : NodeId} (hx : g.expr e = .signExtend inner)
    (hinner : env.lower g inner = .ok operand) (h : operand.Everywhere (Traced env g e))
    (hplain : env.lowerSignExtend operand (g.width e) = .ok plain) :
    plain.Everywhere (Traced env g e) := by
  have silent : ∀ part : Code, part.readsSign = false → Traced env g e part :=
    traced_of_not_readsSign
  rcases lowerSignExtend_eq_ok hplain with ⟨-, rfl⟩ | ⟨hwider, -, type, truth, -, -, rfl⟩
  · exact h
  have hshift : Traced env g e
      (.binary .shr operand (.scalar operand.type (operand.bits - 1)) operand.type) :=
    fun _ => ⟨e, .refl e, .signTest hx hinner hwider hplain⟩
  exact ⟨silent _ rfl, ⟨silent _ rfl, ⟨hshift, h, silent _ rfl⟩, silent _ rfl⟩,
    ⟨silent _ rfl, ⟨silent _ rfl, h⟩, silent _ rfl⟩, silent _ rfl, h⟩

theorem Lowers.traced (wf : g.WellFormed) (he : e < g.size) (h : env.Lowers g e code) :
    code.Everywhere (Traced env g e) := by
  have silent : ∀ {n} (part : Code), part.readsSign = false → Traced env g n part :=
    traced_of_not_readsSign
  induction h with
  | constant hx hplain hcode =>
    obtain ⟨type, values, -, rfl⟩ := lowerConstant_eq_ok hplain
    cases hcode
    exact silent _ rfl
  | @packetRead e r index plain code hx hname hplain hcode =>
    obtain ⟨offset, start, v, -, rfl⟩ := lowerPacketRead_eq_ok hplain
    have hread : (Code.read v .byte (.index (offset - start))).Everywhere (Traced env g e) :=
      ⟨silent _ rfl, silent _ rfl⟩
    exact simplified_traced hread (simplified_of_simplify hcode)
  | @symbolRead e r index v i code hx hname hv hindex hcode ih =>
    have hchild : index ∈ (g.expr e).children := by simp [hx, Expr.children]
    have hi := (ih (wf.child_lt_size he hchild)).imp fun _ => Traced.of_child hchild
    have hread : (Code.read v .byte i).Everywhere (Traced env g e) := ⟨silent _ rfl, hi⟩
    exact simplified_traced hread (simplified_of_simplify hcode)
  | localRead => exact silent _ rfl
  | @concat e high low left right code hx hleft hright hcode ihl ihr =>
    have hhigh : high ∈ (g.expr e).children := by simp [hx, Expr.children]
    have hlow : low ∈ (g.expr e).children := by simp [hx, Expr.children]
    have hl := (ihl (wf.child_lt_size he hhigh)).imp fun _ => Traced.of_child hhigh
    have hr := (ihr (wf.child_lt_size he hlow)).imp fun _ => Traced.of_child hlow
    rcases lowerConcat_eq_ok hcode with ⟨-, rfl⟩ | ⟨type, -, hcode⟩
    · exact hr
    · have hconcat : (Code.concat left right type).Everywhere (Traced env g e) :=
        ⟨silent _ rfl, hl, hr⟩
      exact simplified_traced hconcat hcode
  | @extract e inner offset width whole plain code hx haligned hinner hplain hcode ih =>
    have hchild : inner ∈ (g.expr e).children := by simp [hx, Expr.children]
    have hlt := wf.child_lt_size he hchild
    have hw := (ih hlt).imp fun _ => Traced.of_child hchild
    have hplain := lowerExtract_traced hx (hinner.lower_eq_ok wf hlt) hw hplain
    exact simplified_traced hplain (simplified_of_simplify hcode)
  | @zeroExtend e inner operand code type hx hinner htype hcode ih =>
    have hchild : inner ∈ (g.expr e).children := by simp [hx, Expr.children]
    have ho := (ih (wf.child_lt_size he hchild)).imp fun _ => Traced.of_child hchild
    have hcast : (Code.cast operand type).Everywhere (Traced env g e) := ⟨silent _ rfl, ho⟩
    exact simplified_traced hcast (simplified_of_simplify hcode)
  | @signExtend e inner operand plain code hx hinner hplain hcode ih =>
    have hchild : inner ∈ (g.expr e).children := by simp [hx, Expr.children]
    have hlt := wf.child_lt_size he hchild
    have ho := (ih hlt).imp fun _ => Traced.of_child hchild
    have hplain := lowerSignExtend_traced hx (hinner.lower_eq_ok wf hlt) ho hplain
    exact simplified_traced hplain (simplified_of_simplify hcode)
  | @not e inner operand hx hinner ih =>
    have hchild : inner ∈ (g.expr e).children := by simp [hx, Expr.children]
    exact ⟨silent _ rfl, (ih (wf.child_lt_size he hchild)).imp fun _ => Traced.of_child hchild⟩
  | @binary e lhs rhs op left right plain code hx hleft hright hplain hcode ihl ihr =>
    have hlhs : lhs ∈ (g.expr e).children := by simp [hx, Expr.children]
    have hrhs : rhs ∈ (g.expr e).children := by simp [hx, Expr.children]
    have hl := (ihl (wf.child_lt_size he hlhs)).imp fun _ => Traced.of_child hlhs
    have hr := (ihr (wf.child_lt_size he hrhs)).imp fun _ => Traced.of_child hrhs
    have hleft := hleft.lower_eq_ok wf (wf.child_lt_size he hlhs)
    have hright := hright.lower_eq_ok wf (wf.child_lt_size he hrhs)
    have hbuilt : Traced env g e plain := fun _ => ⟨e, .refl e, .binary hx hleft hright hplain⟩
    obtain ⟨type, left', -, hleft', rfl⟩ := lowerBinary_eq_ok hplain
    cases hcode
    exact ⟨hbuilt, operand_everywhere (fun _ _ => silent _ rfl) hl hleft', hr⟩
  | @doubled e lhs rhs x op operand code hx hdouble hinner hcode ih =>
    have hrhs : rhs ∈ (g.expr e).children := by simp [hx, Expr.children]
    have hchild := Graph.mem_children_of_doubleComplement? hdouble
    have ho := (ih (wf.child_lt_size (wf.child_lt_size he hrhs) hchild)).imp
      fun _ h => Traced.of_child hrhs (Traced.of_child hchild h)
    exact simplified_traced ho (simplified_of_simplify hcode)
  | @compare e lhs rhs op left right plain code hx hsingle hleft hright hplain hcode ihl ihr =>
    have hlhs : lhs ∈ (g.expr e).children := by simp [hx, Expr.children]
    have hrhs : rhs ∈ (g.expr e).children := by simp [hx, Expr.children]
    have hl := (ihl (wf.child_lt_size he hlhs)).imp fun _ => Traced.of_child hlhs
    have hr := (ihr (wf.child_lt_size he hrhs)).imp fun _ => Traced.of_child hrhs
    have hleft := hleft.lower_eq_ok wf (wf.child_lt_size he hlhs)
    have hright := hright.lower_eq_ok wf (wf.child_lt_size he hrhs)
    have hbuilt : Traced env g e plain :=
      fun _ => ⟨e, .refl e, .compare hx hsingle hleft hright hplain⟩
    obtain ⟨type, left', right', -, hleft', hright', rfl⟩ := lowerCompare_eq_ok hplain
    cases hcode
    exact ⟨hbuilt, operand_everywhere (fun _ _ => silent _ rfl) hl hleft',
      operand_everywhere (fun _ _ => silent _ rfl) hr hright'⟩
  | @select e cond ifTrue ifFalse c t f hx hcond htrue hfalse ihc iht ihf =>
    have hc : cond ∈ (g.expr e).children := by simp [hx, Expr.children]
    have ht : ifTrue ∈ (g.expr e).children := by simp [hx, Expr.children]
    have hf : ifFalse ∈ (g.expr e).children := by simp [hx, Expr.children]
    exact ⟨silent _ rfl, (ihc (wf.child_lt_size he hc)).imp fun _ => Traced.of_child hc,
      (iht (wf.child_lt_size he ht)).imp fun _ => Traced.of_child ht,
      (ihf (wf.child_lt_size he hf)).imp fun _ => Traced.of_child hf⟩

end Traced

/-- Code that is built for signed operators has signed operands. So far as no declared type is
signed and no reachable node is lowered to a signed variable, all code that is built for reachable
nodes keeps the sign of the node. Whatever depends on the sign of operands in lowered code was built
for a reachable node. -/
theorem lower_keepsSign (wf : g.WellFormed) (he : e < g.size) (h : env.lower g e = .ok code) :
    (∀ n built, env.Builds g n built → (g.expr n).readsSigned = true → (g.expr n).KeepsSign built) ∧
    (env.types.Unsigned →
      (∀ n, g.Reaches e n → ∀ v, env.lower g n = .ok (.var v) → v.type.isSigned = false) →
      ∀ n built, g.Reaches e n → env.Builds g n built → (g.expr n).KeepsSign built) ∧
    code.Everywhere fun part => part.readsSign = true →
      ∃ n, g.Reaches e n ∧ env.Builds g n part := by
  refine ⟨fun n built hbuilt hs => hbuilt.keepsSign_of_readsSigned hs,
    fun hu hv n built hr hbuilt => ?_, ?_⟩
  · exact hbuilt.keepsSign hu wf (hr.lt_size wf he) fun x hx => hv x (hr.trans hx)
  · exact (lowers_of_lower wf he h).traced wf he

/-- A field is shifted right as a signed number, and the high byte of the result, as a wider number,
is divided by the field. -/
theorem lower_keepsSign_of_shifted_field :
    let field : Variable := ⟨"d", .unsigned 16⟩
    let env : Environment := { symbols := ({} : SymbolTable).declare "D" field }
    let g : Graph :=
      { nodes := #[⟨.constant ⟨0, 32⟩, 32⟩, ⟨.read 0 0, 8⟩, ⟨.constant ⟨1, 32⟩, 32⟩, ⟨.read 0 2, 8⟩,
          ⟨.concat 3 1, 16⟩, ⟨.constant ⟨3, 16⟩, 16⟩, ⟨.binary .ashr 4 5, 16⟩, ⟨.extract 6 8 8, 8⟩,
          ⟨.zeroExtend 7, 16⟩, ⟨.binary .udiv 8 4, 16⟩]
        roots := #[.symbolic "D" 2] }
    let word : Ty := .unsigned 16
    let shifted : Code := .binary .shr (.cast (.var field) (.signed 16)) (.scalar word 3) word
    let high : Code :=
      .cast (.binary .and (.binary .shr shifted (.scalar word 8) word) (.scalar word 0xff) word)
        .byte
    let quotient : Code := .binary .div (.cast high word) (.var field) word
    g.WellFormed ∧ 9 < g.size ∧ env.types.Unsigned ∧
      (∀ n, g.Reaches 9 n → ∀ v, env.lower g n = .ok (.var v) → v.type.isSigned = false) ∧
      env.lower g 9 = .ok quotient ∧ env.Builds g 6 shifted ∧ (g.expr 6).KeepsSign shifted ∧
      (∀ n built, g.Reaches 9 n → env.Builds g n built → (g.expr n).KeepsSign built) ∧
      quotient.Everywhere fun part => part.readsSign = true →
        ∃ n, g.Reaches 9 n ∧ env.Builds g n part := by
  intro field env g word shifted high quotient
  have wf : g.WellFormed := by decide +kernel
  have he : 9 < g.size := by decide
  have unsigned : env.types.Unsigned := by
    intro width type h
    simp [env] at h
  have check : ∀ n < g.size, (env.lower g n).toOption.all fun code =>
      !code.isVariable || !code.type.isSigned := by
    decide +kernel
  have fields : ∀ n, g.Reaches 9 n → ∀ v, env.lower g n = .ok (.var v) →
      v.type.isSigned = false := by
    intro n hr v hn
    simpa [hn, Except.toOption, isVariable, Code.type] using check n (hr.lt_size wf he)
  have lowered : env.lower g 9 = .ok quotient := by decide +kernel
  have hleft : env.lower g 4 = .ok (.var field) := by decide +kernel
  have hright : env.lower g 5 = .ok (.scalar word 3) := by decide +kernel
  have builds : env.Builds g 6 shifted :=
    .binary (show g.expr 6 = .binary .ashr 4 5 from rfl) hleft hright (by decide +kernel)
  obtain ⟨signed, unsignedToo, traced⟩ := lower_keepsSign wf he lowered
  exact ⟨wf, he, unsigned, fields, lowered, builds, signed 6 shifted builds rfl,
    unsignedToo unsigned fields, traced⟩

/-- The bytes of a signed field are divided as an unsigned number, and the field stands for them:
the left operand of the division is signed. -/
theorem lower_quotient_of_signed_field :
    let field : Variable := ⟨"d", .signed 16⟩
    let env : Environment := { symbols := ({} : SymbolTable).declare "D" field }
    let g : Graph :=
      { nodes := #[⟨.constant ⟨0, 32⟩, 32⟩, ⟨.read 0 0, 8⟩, ⟨.constant ⟨1, 32⟩, 32⟩, ⟨.read 0 2, 8⟩,
          ⟨.concat 3 1, 16⟩, ⟨.constant ⟨2, 16⟩, 16⟩, ⟨.binary .udiv 4 5, 16⟩]
        roots := #[.symbolic "D" 2] }
    let quotient : Code := .binary .div (.var field) (.scalar (.unsigned 16) 2) (.unsigned 16)
    g.WellFormed ∧ 6 < g.size ∧ env.lower g 6 = .ok quotient ∧ env.Builds g 6 quotient ∧
      ¬ (g.expr 6).KeepsSign quotient := by
  intro field env g quotient
  have hleft : env.lower g 4 = .ok (.var field) := by decide +kernel
  have hright : env.lower g 5 = .ok (.scalar (.unsigned 16) 2) := by decide +kernel
  have builds : env.Builds g 6 quotient :=
    .binary (show g.expr 6 = .binary .udiv 4 5 from rfl) hleft hright (by decide +kernel)
  refine ⟨by decide +kernel, by decide, by decide +kernel, builds, ?_⟩
  rintro ⟨-, hsign⟩
  exact absurd (hsign rfl) (by decide)

end Environment

end BitvectorCode
