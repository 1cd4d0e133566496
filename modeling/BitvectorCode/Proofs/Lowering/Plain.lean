import BitvectorCode.Lowering.Lower
import BitvectorCode.Proofs.Graph.Unfolding

/-!
# Lowering without a table

Lowered nodes are remembered, and the table goes from one node to the next. In a well-formed graph
it makes no difference: lowering is a function of the node, and gives the code that its rule makes
of the code of the nodes below.
-/

namespace BitvectorCode

theorem Graph.mem_children_of_doubleComplement? {g : Graph} {op : CompareOp} {lhs rhs x : NodeId}
    (h : g.doubleComplement? (.compare op lhs rhs) = some x) : x ∈ (g.expr rhs).children := by
  unfold Graph.doubleComplement? at h
  split at h
  · next lhs' rhs' hsame =>
    cases hsame
    split at h
    · next innerLhs innerRhs hinner =>
      split at h
      · cases h
        rw [hinner]
        simp [Expr.children]
      · cases h
    · cases h
  · cases h

namespace Environment

variable (env : Environment) (g : Graph) (lower : NodeId → Except Error Code)

def readCode (e : NodeId) (name : String) (index : NodeId) : Except Error Code :=
  if name = env.options.packetSymbol then env.lowerPacketRead g index name
  else match env.symbols.symbols[name]? with
    | some v => return .read v .byte (← lower index)
    | none =>
      match env.symbols.locals[e]? with
      | some v => .ok (.var v)
      | none => .error (.unresolved name env.dump)

def nodeCode (e : NodeId) : Except Error Code :=
  let width := g.width e
  match g.expr e with
  | .constant c => do (← env.lowerConstant c).simplify env.types
  | .read r index => do
    (← env.readCode g lower e (env.options.resolve (g.root r).name) index).simplify env.types
  | .concat high low => do
    let left ← lower high
    let right ← lower low
    env.lowerConcat g e left right
  | .extract inner offset width => do
    if offset % 8 ≠ 0 then throw (.unaligned offset)
    (← env.lowerExtract (← lower inner) offset width).simplify env.types
  | .zeroExtend inner => do
    let code ← lower inner
    Code.simplify env.types (.cast code (← env.types.typeFor width))
  | .signExtend inner => do (← env.lowerSignExtend (← lower inner) width).simplify env.types
  | .not inner => do Code.simplify env.types (.complement (← lower inner))
  | .binary op lhs rhs => do
    let left ← lower lhs
    let right ← lower rhs
    (← env.lowerBinary op left right width).simplify env.types
  | .compare op lhs rhs =>
    match g.doubleComplement? (.compare op lhs rhs) with
    | some x => do (← lower x).simplify env.types
    | none => do
      let left ← lower lhs
      let right ← lower rhs
      (← env.lowerCompare op left right).simplify env.types
  | .select cond ifTrue ifFalse => do
    let c ← lower cond
    let t ← lower ifTrue
    let f ← lower ifFalse
    Code.simplify env.types (.choose c t f)

variable {env g lower} {e : NodeId} {inv : Answers Code → Prop} {walk : NodeId → LowerM Code}

theorem lowerRead_computes {name : String} {index : NodeId}
    (h : Computes inv (walk index) (lower index)) :
    Computes inv (env.lowerRead g walk e name index) (env.readCode g lower e name index) := by
  unfold lowerRead readCode
  split
  · exact .ofExcept
  · cases env.symbols.symbols[name]? with
    | some v => exact .bind h fun _ _ => .pure
    | none =>
      cases env.symbols.locals[e]? with
      | some v => exact .pure
      | none => exact .throw

theorem lowerWithin_succ (env : Environment) (wf : g.WellFormed) (depth : Nat) (e : NodeId) :
    ∃ answer, env.lowerWithin g (depth + 1) e = remember e answer ∧
      ∀ (inv : Answers Code → Prop) (lower : NodeId → Except Error Code),
        (∀ x < e, Computes inv (env.lowerWithin g depth x) (lower x)) →
          Computes inv answer (env.nodeCode g lower e) := by
  refine ⟨_, rfl, fun inv lower below => ?_⟩
  have child : ∀ x ∈ (g.expr e).children, Computes inv (env.lowerWithin g depth x) (lower x) :=
    fun x hx => below x (wf.child_lt hx)
  unfold nodeCode
  cases hx : g.expr e with
  | constant c => exact .bind .ofExcept fun _ _ => .ofExcept
  | read r index =>
    rw [hx] at child
    exact .bind (lowerRead_computes (child index (by simp [Expr.children]))) fun _ _ => .ofExcept
  | concat high low =>
    rw [hx] at child
    apply Computes.bind (child high (by simp [Expr.children]))
    intro left _
    exact .bind (child low (by simp [Expr.children])) fun right _ => .ofExcept
  | extract inner offset width =>
    rw [hx] at child
    dsimp only
    split
    · exact .throw
    · apply Computes.bind (child inner (by simp [Expr.children]))
      intro code _
      exact .bind .ofExcept fun _ _ => .ofExcept
  | zeroExtend inner =>
    rw [hx] at child
    apply Computes.bind (child inner (by simp [Expr.children]))
    intro code _
    exact .bind .ofExcept fun _ _ => .ofExcept
  | signExtend inner =>
    rw [hx] at child
    apply Computes.bind (child inner (by simp [Expr.children]))
    intro code _
    exact .bind .ofExcept fun _ _ => .ofExcept
  | not inner =>
    rw [hx] at child
    exact .bind (child inner (by simp [Expr.children])) fun _ _ => .ofExcept
  | binary op lhs rhs =>
    rw [hx] at child
    apply Computes.bind (child lhs (by simp [Expr.children]))
    intro left _
    apply Computes.bind (child rhs (by simp [Expr.children]))
    intro right _
    exact .bind .ofExcept fun _ _ => .ofExcept
  | compare op lhs rhs =>
    have hrhs : rhs < e := wf.child_lt (by simp [hx, Expr.children])
    rw [hx] at child
    dsimp only
    cases hdouble : g.doubleComplement? (.compare op lhs rhs) with
    | some x =>
      have hlt : x < rhs := wf.child_lt (Graph.mem_children_of_doubleComplement? hdouble)
      exact .bind (below x (by lia)) fun _ _ => .ofExcept
    | none =>
      apply Computes.bind (child lhs (by simp [Expr.children]))
      intro left _
      apply Computes.bind (child rhs (by simp [Expr.children]))
      intro right _
      exact .bind .ofExcept fun _ _ => .ofExcept
  | select cond ifTrue ifFalse =>
    rw [hx] at child
    apply Computes.bind (child cond (by simp [Expr.children]))
    intro c _
    apply Computes.bind (child ifTrue (by simp [Expr.children]))
    intro t _
    exact .bind (child ifFalse (by simp [Expr.children])) fun _ _ => .ofExcept

theorem lower_eq_of_ensures {r : Except Error Code}
    (h : Ensures (· = ∅) (env.lowerWithin g g.size e) (fun code _ => r = .ok code)
      fun err _ => r = .error err) : env.lower g e = r := by
  have run := h ∅ rfl
  unfold lower Lowerer.lower
  dsimp only
  split
  · next hx =>
    rw [hx] at run
    exact run.symm
  · next hx =>
    rw [hx] at run
    exact run.symm

/-- A walk whose remembered answers are right lowers a node as its rule says, and keeps the answers
right. The induction is on the position. At each position the depth is arbitrary: that of a walk
from the start shows that the rule is followed before any answer is remembered. -/
theorem lowerWithin_computes (wf : g.WellFormed) (he : e < g.size) :
    (∀ depth, e < depth → Computes (Remembered fun e code => env.lower g e = .ok code)
      (env.lowerWithin g depth e) (env.lower g e)) ∧
      env.lower g e = env.nodeCode g (env.lower g) e := by
  induction e using Nat.strong_induction_on with
  | _ e ih =>
    let right : NodeId → Code → Prop := fun e code => env.lower g e = .ok code
    have rule : ∀ depth, e ≤ depth → ∃ answer, env.lowerWithin g (depth + 1) e = remember e answer ∧
        Computes (Remembered right) answer (env.nodeCode g (env.lower g) e) := by
      intro depth hdepth
      obtain ⟨answer, hrun, hanswer⟩ := lowerWithin_succ env wf depth e
      exact ⟨answer, hrun, hanswer _ _ fun x hx => (ih x hx (by lia)).1 depth (by lia)⟩
    have eq : env.lower g e = env.nodeCode g (env.lower g) e := by
      obtain ⟨n, hn⟩ : ∃ n, g.size = n + 1 := ⟨g.size - 1, by lia⟩
      obtain ⟨answer, hrun, hanswer⟩ := rule n (by lia)
      apply lower_eq_of_ensures
      rw [hn, hrun]
      apply Ensures.remember_empty
      exact hanswer.weaken (fun _ hs => hs ▸ remembered_empty) (fun _ _ h => h.1) fun _ _ h => h.1
    refine ⟨fun depth hdepth => ?_, eq⟩
    obtain ⟨n, rfl⟩ : ∃ n, depth = n + 1 := ⟨depth - 1, by lia⟩
    obtain ⟨answer, hrun, hanswer⟩ := rule n (by lia)
    rw [← eq] at hanswer
    rw [hrun]
    exact Ensures.remember hanswer

/-- The code of a node is made by its rule from the code of the nodes below. -/
theorem lower_eq (wf : g.WellFormed) (he : e < g.size) :
    env.lower g e = env.nodeCode g (env.lower g) e :=
  (lowerWithin_computes wf he).2

end Environment

end BitvectorCode
