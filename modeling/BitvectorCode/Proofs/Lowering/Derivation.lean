import BitvectorCode.Proofs.Graph.Reachability
import BitvectorCode.Proofs.Lowering.Plain

/-!
# Lowering as a relation

`Lowers` has one rule for each way a node can be lowered, and the premises of a rule lower the nodes
below. In a well-formed graph an expression is lowered to a code exactly when the rules derive it,
so what holds of all lowered code is shown by induction on the derivation.
-/

namespace BitvectorCode

open Code

namespace Environment

/-- The rules of lowering. Each makes the plain code of a node from the codes of the nodes below;
all but those of concats, which decide for themselves, simplify the plain code at once. -/
inductive Lowers (env : Environment) (g : Graph) : NodeId → Code → Prop
  | constant {e : NodeId} {c : Constant} {plain code : Code} (hx : g.expr e = .constant c)
      (hplain : env.lowerConstant c = .ok plain) (hcode : plain.simplify env.types = .ok code) :
      Lowers env g e code
  | packetRead {e : NodeId} {r : RootId} {index : NodeId} {plain code : Code}
      (hx : g.expr e = .read r index)
      (hname : env.options.resolve (g.root r).name = env.options.packetSymbol)
      (hplain : env.lowerPacketRead g index (env.options.resolve (g.root r).name) = .ok plain)
      (hcode : plain.simplify env.types = .ok code) : Lowers env g e code
  | symbolRead {e : NodeId} {r : RootId} {index : NodeId} {v : Variable} {i code : Code}
      (hx : g.expr e = .read r index)
      (hname : env.options.resolve (g.root r).name ≠ env.options.packetSymbol)
      (hv : env.symbols.symbols[env.options.resolve (g.root r).name]? = some v)
      (hindex : Lowers env g index i)
      (hcode : (Code.read v .byte i).simplify env.types = .ok code) :
      Lowers env g e code
  | localRead {e : NodeId} {r : RootId} {index : NodeId} {v : Variable}
      (hx : g.expr e = .read r index)
      (hname : env.options.resolve (g.root r).name ≠ env.options.packetSymbol)
      (hnone : env.symbols.symbols[env.options.resolve (g.root r).name]? = none)
      (hv : env.symbols.locals[e]? = some v) : Lowers env g e (.var v)
  | concat {e high low : NodeId} {left right code : Code} (hx : g.expr e = .concat high low)
      (hleft : Lowers env g high left) (hright : Lowers env g low right)
      (hcode : env.lowerConcat g e left right = .ok code) : Lowers env g e code
  | extract {e inner : NodeId} {offset width : Nat} {whole plain code : Code}
      (hx : g.expr e = .extract inner offset width) (haligned : offset % 8 = 0)
      (hinner : Lowers env g inner whole) (hplain : env.lowerExtract whole offset width = .ok plain)
      (hcode : plain.simplify env.types = .ok code) : Lowers env g e code
  | zeroExtend {e inner : NodeId} {operand code : Code} {type : Ty}
      (hx : g.expr e = .zeroExtend inner) (hinner : Lowers env g inner operand)
      (htype : env.types.typeFor (g.width e) = .ok type)
      (hcode : (Code.cast operand type).simplify env.types = .ok code) : Lowers env g e code
  | signExtend {e inner : NodeId} {operand plain code : Code} (hx : g.expr e = .signExtend inner)
      (hinner : Lowers env g inner operand)
      (hplain : env.lowerSignExtend operand (g.width e) = .ok plain)
      (hcode : plain.simplify env.types = .ok code) : Lowers env g e code
  | not {e inner : NodeId} {operand : Code} (hx : g.expr e = .not inner)
      (hinner : Lowers env g inner operand) : Lowers env g e (.complement operand)
  | binary {e lhs rhs : NodeId} {op : BinaryOp} {left right plain code : Code}
      (hx : g.expr e = .binary op lhs rhs) (hleft : Lowers env g lhs left)
      (hright : Lowers env g rhs right)
      (hplain : env.lowerBinary op left right (g.width e) = .ok plain)
      (hcode : plain.simplify env.types = .ok code) : Lowers env g e code
  | doubled {e lhs rhs x : NodeId} {op : CompareOp} {operand code : Code}
      (hx : g.expr e = .compare op lhs rhs)
      (hdouble : g.doubleComplement? (.compare op lhs rhs) = some x)
      (hinner : Lowers env g x operand) (hcode : operand.simplify env.types = .ok code) :
      Lowers env g e code
  | compare {e lhs rhs : NodeId} {op : CompareOp} {left right plain code : Code}
      (hx : g.expr e = .compare op lhs rhs)
      (hsingle : g.doubleComplement? (.compare op lhs rhs) = none) (hleft : Lowers env g lhs left)
      (hright : Lowers env g rhs right) (hplain : env.lowerCompare op left right = .ok plain)
      (hcode : plain.simplify env.types = .ok code) : Lowers env g e code
  | select {e cond ifTrue ifFalse : NodeId} {c t f : Code}
      (hx : g.expr e = .select cond ifTrue ifFalse) (hcond : Lowers env g cond c)
      (htrue : Lowers env g ifTrue t) (hfalse : Lowers env g ifFalse f) :
      Lowers env g e (.choose c t f)

variable {env : Environment} {g : Graph} {e : NodeId} {code : Code}

/-- Lowered code is derived from the codes of the nodes below. -/
theorem lowers_of_nodeCode (wf : g.WellFormed)
    (below : ∀ x < e, ∀ code, env.lower g x = .ok code → env.Lowers g x code)
    (h : env.nodeCode g (env.lower g) e = .ok code) : env.Lowers g e code := by
  have child : ∀ x ∈ (g.expr e).children, ∀ code, env.lower g x = .ok code → env.Lowers g x code :=
    fun x hx => below x (wf.child_lt hx)
  unfold nodeCode at h
  cases hx : g.expr e with
  | constant c =>
    rw [hx] at h
    obtain ⟨plain, hplain, h⟩ := bind_eq_ok_iff.1 h
    exact .constant hx hplain h
  | read r index =>
    rw [hx] at h child
    obtain ⟨plain, hplain, h⟩ := bind_eq_ok_iff.1 h
    unfold readCode at hplain
    split at hplain
    · next hname => exact .packetRead hx hname hplain h
    · next hname =>
      split at hplain
      · next v hv =>
        obtain ⟨i, hi, hplain⟩ := bind_eq_ok_iff.1 hplain
        cases hplain
        exact .symbolRead hx hname hv (child index (by simp [Expr.children]) i hi) h
      · next hnone =>
        split at hplain
        · next v hv =>
          cases hplain
          cases h
          exact .localRead hx hname hnone hv
        · cases hplain
  | concat high low =>
    rw [hx] at h child
    obtain ⟨left, hleft, h⟩ := bind_eq_ok_iff.1 h
    obtain ⟨right, hright, h⟩ := bind_eq_ok_iff.1 h
    exact .concat hx (child high (by simp [Expr.children]) left hleft)
      (child low (by simp [Expr.children]) right hright) h
  | extract inner offset width =>
    rw [hx] at h child
    dsimp only at h
    split at h
    · cases h
    · next haligned =>
      obtain ⟨whole, hwhole, h⟩ := bind_eq_ok_iff.1 h
      obtain ⟨plain, hplain, h⟩ := bind_eq_ok_iff.1 h
      exact .extract hx (not_not.1 haligned)
        (child inner (by simp [Expr.children]) whole hwhole) hplain h
  | zeroExtend inner =>
    rw [hx] at h child
    obtain ⟨operand, hoperand, h⟩ := bind_eq_ok_iff.1 h
    obtain ⟨type, htype, h⟩ := bind_eq_ok_iff.1 h
    exact .zeroExtend hx (child inner (by simp [Expr.children]) operand hoperand) htype h
  | signExtend inner =>
    rw [hx] at h child
    obtain ⟨operand, hoperand, h⟩ := bind_eq_ok_iff.1 h
    obtain ⟨plain, hplain, h⟩ := bind_eq_ok_iff.1 h
    exact .signExtend hx (child inner (by simp [Expr.children]) operand hoperand) hplain h
  | not inner =>
    rw [hx] at h child
    obtain ⟨operand, hoperand, h⟩ := bind_eq_ok_iff.1 h
    cases h
    exact .not hx (child inner (by simp [Expr.children]) operand hoperand)
  | binary op lhs rhs =>
    rw [hx] at h child
    obtain ⟨left, hleft, h⟩ := bind_eq_ok_iff.1 h
    obtain ⟨right, hright, h⟩ := bind_eq_ok_iff.1 h
    obtain ⟨plain, hplain, h⟩ := bind_eq_ok_iff.1 h
    exact .binary hx (child lhs (by simp [Expr.children]) left hleft)
      (child rhs (by simp [Expr.children]) right hright) hplain h
  | compare op lhs rhs =>
    have hrhs : rhs < e := wf.child_lt (by simp [hx, Expr.children])
    rw [hx] at h child
    dsimp only at h
    cases hdouble : g.doubleComplement? (.compare op lhs rhs) with
    | some x =>
      have hlt : x < rhs := wf.child_lt (Graph.mem_children_of_doubleComplement? hdouble)
      rw [hdouble] at h
      obtain ⟨operand, hoperand, h⟩ := bind_eq_ok_iff.1 h
      exact .doubled hx hdouble (below x (by lia) operand hoperand) h
    | none =>
      rw [hdouble] at h
      obtain ⟨left, hleft, h⟩ := bind_eq_ok_iff.1 h
      obtain ⟨right, hright, h⟩ := bind_eq_ok_iff.1 h
      obtain ⟨plain, hplain, h⟩ := bind_eq_ok_iff.1 h
      exact .compare hx hdouble (child lhs (by simp [Expr.children]) left hleft)
        (child rhs (by simp [Expr.children]) right hright) hplain h
  | select cond ifTrue ifFalse =>
    rw [hx] at h child
    obtain ⟨c, hc, h⟩ := bind_eq_ok_iff.1 h
    obtain ⟨t, ht, h⟩ := bind_eq_ok_iff.1 h
    obtain ⟨f, hf, h⟩ := bind_eq_ok_iff.1 h
    cases h
    exact .select hx (child cond (by simp [Expr.children]) c hc)
      (child ifTrue (by simp [Expr.children]) t ht) (child ifFalse (by simp [Expr.children]) f hf)

theorem lowers_of_lower (wf : g.WellFormed) (he : e < g.size) (h : env.lower g e = .ok code) :
    env.Lowers g e code := by
  induction e using Nat.strong_induction_on generalizing code with
  | _ e ih =>
    rw [lower_eq wf he] at h
    exact lowers_of_nodeCode wf (fun x hx code hcode => ih x hx (by lia) hcode) h

theorem Lowers.lower_eq_ok (h : env.Lowers g e code) (wf : g.WellFormed) (he : e < g.size) :
    env.lower g e = .ok code := by
  induction h with
  | constant hx hplain hcode =>
    rw [lower_eq wf he, nodeCode, hx]
    exact bind_eq_ok_iff.2 ⟨_, hplain, hcode⟩
  | packetRead hx hname hplain hcode =>
    rw [lower_eq wf he, nodeCode, hx]
    refine bind_eq_ok_iff.2 ⟨_, ?_, hcode⟩
    rw [readCode, if_pos hname, hplain]
  | symbolRead hx hname hv hindex hcode ih =>
    have hi := ih (wf.child_lt_size he (by simp [hx, Expr.children]))
    rw [lower_eq wf he, nodeCode, hx]
    refine bind_eq_ok_iff.2 ⟨_, ?_, hcode⟩
    rw [readCode, if_neg hname, hv]
    exact bind_eq_ok_iff.2 ⟨_, hi, rfl⟩
  | localRead hx hname hnone hv =>
    rw [lower_eq wf he, nodeCode, hx]
    refine bind_eq_ok_iff.2 ⟨.var _, ?_, rfl⟩
    rw [readCode, if_neg hname, hnone, hv]
  | concat hx hleft hright hcode ihl ihr =>
    have hl := ihl (wf.child_lt_size he (by simp [hx, Expr.children]))
    have hr := ihr (wf.child_lt_size he (by simp [hx, Expr.children]))
    rw [lower_eq wf he, nodeCode, hx]
    exact bind_eq_ok_iff.2 ⟨_, hl, bind_eq_ok_iff.2 ⟨_, hr, hcode⟩⟩
  | extract hx haligned hinner hplain hcode ih =>
    have hi := ih (wf.child_lt_size he (by simp [hx, Expr.children]))
    rw [lower_eq wf he, nodeCode, hx]
    dsimp only
    rw [if_neg (not_not.2 haligned)]
    exact bind_eq_ok_iff.2 ⟨_, hi, bind_eq_ok_iff.2 ⟨_, hplain, hcode⟩⟩
  | zeroExtend hx hinner hplain hcode ih | signExtend hx hinner hplain hcode ih =>
    have hi := ih (wf.child_lt_size he (by simp [hx, Expr.children]))
    rw [lower_eq wf he, nodeCode, hx]
    exact bind_eq_ok_iff.2 ⟨_, hi, bind_eq_ok_iff.2 ⟨_, hplain, hcode⟩⟩
  | not hx hinner ih =>
    have hi := ih (wf.child_lt_size he (by simp [hx, Expr.children]))
    rw [lower_eq wf he, nodeCode, hx]
    exact bind_eq_ok_iff.2 ⟨_, hi, rfl⟩
  | binary hx hleft hright hplain hcode ihl ihr =>
    have hl := ihl (wf.child_lt_size he (by simp [hx, Expr.children]))
    have hr := ihr (wf.child_lt_size he (by simp [hx, Expr.children]))
    rw [lower_eq wf he, nodeCode, hx]
    exact bind_eq_ok_iff.2 ⟨_, hl, bind_eq_ok_iff.2 ⟨_, hr, bind_eq_ok_iff.2 ⟨_, hplain, hcode⟩⟩⟩
  | @doubled e lhs rhs x op operand code hx hdouble hinner hcode ih =>
    have hrhs : rhs < g.size := wf.child_lt_size he (by simp [hx, Expr.children])
    have hi := ih (wf.child_lt_size hrhs (Graph.mem_children_of_doubleComplement? hdouble))
    rw [lower_eq wf he, nodeCode, hx]
    dsimp only
    rw [hdouble]
    exact bind_eq_ok_iff.2 ⟨_, hi, hcode⟩
  | compare hx hsingle hleft hright hplain hcode ihl ihr =>
    have hl := ihl (wf.child_lt_size he (by simp [hx, Expr.children]))
    have hr := ihr (wf.child_lt_size he (by simp [hx, Expr.children]))
    rw [lower_eq wf he, nodeCode, hx]
    dsimp only
    rw [hsingle]
    exact bind_eq_ok_iff.2 ⟨_, hl, bind_eq_ok_iff.2 ⟨_, hr, bind_eq_ok_iff.2 ⟨_, hplain, hcode⟩⟩⟩
  | select hx hcond htrue hfalse ihc iht ihf =>
    have hc := ihc (wf.child_lt_size he (by simp [hx, Expr.children]))
    have ht := iht (wf.child_lt_size he (by simp [hx, Expr.children]))
    have hf := ihf (wf.child_lt_size he (by simp [hx, Expr.children]))
    rw [lower_eq wf he, nodeCode, hx]
    exact bind_eq_ok_iff.2 ⟨_, hc, bind_eq_ok_iff.2 ⟨_, ht, bind_eq_ok_iff.2 ⟨_, hf, rfl⟩⟩⟩

/-- An expression of a well-formed graph is lowered to a code exactly when the rules derive it. -/
theorem lower_eq_ok_iff (wf : g.WellFormed) (he : e < g.size) :
    env.lower g e = .ok code ↔ env.Lowers g e code :=
  ⟨lowers_of_lower wf he, fun h => h.lower_eq_ok wf he⟩

end Environment

end BitvectorCode
