import BitvectorCode.Proofs.Analysis.Symbols
import BitvectorCode.Proofs.Graph.Alike
import BitvectorCode.Proofs.Graph.Structure
import BitvectorCode.Proofs.Lowering.Lower

/-!
# Lowering by structure

Apart from the variables bound to positions, lowering looks at nothing but the tree of an
expression. Nodes with equal trees have equal symbols and texts and are double complements together,
so each rule makes the same code, or the same error, of the same codes of the children. A lowering
that is used again answers as a new one does, whatever the calls before left in its table.
-/

namespace BitvectorCode

variable {g h : Graph} {e e' : NodeId} {env : Environment}

namespace Graph.WellFormed

variable (wg : g.WellFormed) (wh : h.WellFormed)
include wg wh

theorem symbols_size_eq (he : e < g.size) (he' : e' < h.size) (htree : g.tree e = h.tree e') :
    (g.symbols e).size = (h.symbols e').size := by
  apply Std.TreeSet.Equiv.size_eq
  apply Std.TreeSet.Equiv.of_forall_mem_iff
  intro name
  rw [wg.mem_symbols_iff he, wh.mem_symbols_iff he', htree]

theorem doubleComplement?_eq (he : e < g.size) (he' : e' < h.size) (htree : g.tree e = h.tree e') :
    (g.doubleComplement? (g.expr e)).map g.tree = (h.doubleComplement? (h.expr e')).map h.tree := by
  rw [← wg.doubleComplement?_tree he, ← wh.doubleComplement?_tree he', htree]

theorem constant?_eq (he : e < g.size) (he' : e' < h.size) (htree : g.tree e = h.tree e') :
    (g.expr e).constant? = (h.expr e').constant? := by
  have like := wg.alike wh he he' htree
  generalize g.expr e = x at like
  generalize h.expr e' = y at like
  cases like <;> rfl

end Graph.WellFormed

namespace Environment

def WithoutLocals (env : Environment) : Prop := ∀ e : NodeId, env.symbols.locals[e]? = none

variable (wg : g.WellFormed) (wh : h.WellFormed)
include wg wh

theorem lowerPacketRead_eq {index index' : NodeId} {name : String} (hi : index < g.size)
    (hi' : index' < h.size) (htree : g.tree index = h.tree index') :
    env.lowerPacketRead g index name = env.lowerPacketRead h index' name := by
  unfold lowerPacketRead
  rw [wg.constant?_eq wh hi hi' htree, wg.render_eq wh hi hi' htree]

theorem lowerConcat_eq {left right : Code} (he : e < g.size) (he' : e' < h.size)
    (htree : g.tree e = h.tree e') :
    env.lowerConcat g e left right = env.lowerConcat h e' left right := by
  unfold lowerConcat
  rw [wg.width_eq_width wh he he' htree, wg.symbols_size_eq wh he he' htree]

/-- The rule of a node makes the same of the same codes of the nodes below, wherever the node is
stored. -/
theorem nodeCode_eq_of_tree_eq (hlocals : env.WithoutLocals)
    {lower lower' : NodeId → Except Error Code} (he : e < g.size) (he' : e' < h.size)
    (htree : g.tree e = h.tree e')
    (below : ∀ x < e, ∀ x' < e', g.tree x = h.tree x' → lower x = lower' x') :
    env.nodeCode g lower e = env.nodeCode h lower' e' := by
  have child : ∀ x ∈ (g.expr e).children, ∀ x' ∈ (h.expr e').children, g.tree x = h.tree x' →
      lower x = lower' x' := fun x hx x' hx' => below x (wg.child_lt hx) x' (wh.child_lt hx')
  have lt : ∀ x ∈ (g.expr e).children, x < g.size := fun x hx => wg.child_lt_size he hx
  have lt' : ∀ x' ∈ (h.expr e').children, x' < h.size := fun x' hx' => wh.child_lt_size he' hx'
  have like := wg.alike wh he he' htree
  have hdouble := wg.doubleComplement?_eq wh he he' htree
  unfold nodeCode
  rw [wg.width_eq_width wh he he' htree]
  generalize hx : g.expr e = x at like child lt hdouble
  generalize hy : h.expr e' = y at like child lt' hdouble
  cases like with
  | constant c => rfl
  | @read r s index index' hroot hindex =>
    have hpacket : ∀ name,
        env.lowerPacketRead g index name = env.lowerPacketRead h index' name := fun name =>
      lowerPacketRead_eq wg wh (lt index (by simp [Expr.children]))
        (lt' index' (by simp [Expr.children])) hindex
    have hcode := child index (by simp [Expr.children]) index' (by simp [Expr.children]) hindex
    simp only [readCode, hroot, hpacket, hcode, hlocals e, hlocals e']
  | @concat high high' low low' hhigh hlow =>
    have hleft := child high (by simp [Expr.children]) high' (by simp [Expr.children]) hhigh
    have hright := child low (by simp [Expr.children]) low' (by simp [Expr.children]) hlow
    simp only [hleft, hright, lowerConcat_eq wg wh he he' htree]
  | @extract inner inner' _ _ hinner | @zeroExtend inner inner' hinner
  | @signExtend inner inner' hinner | @not inner inner' hinner =>
    have hcode := child inner (by simp [Expr.children]) inner' (by simp [Expr.children]) hinner
    simp only [hcode]
  | @binary _ lhs lhs' rhs rhs' hlhs hrhs =>
    have hleft := child lhs (by simp [Expr.children]) lhs' (by simp [Expr.children]) hlhs
    have hright := child rhs (by simp [Expr.children]) rhs' (by simp [Expr.children]) hrhs
    simp only [hleft, hright]
  | @compare op lhs lhs' rhs rhs' hlhs hrhs =>
    have hleft := child lhs (by simp [Expr.children]) lhs' (by simp [Expr.children]) hlhs
    have hright := child rhs (by simp [Expr.children]) rhs' (by simp [Expr.children]) hrhs
    cases hd : g.doubleComplement? (.compare op lhs rhs) with
    | none =>
      have hd' : h.doubleComplement? (.compare op lhs' rhs') = none := by
        simpa [hd, eq_comm] using hdouble
      simp only [hd, hd', hleft, hright]
    | some x =>
      obtain ⟨x', hd', hinner⟩ : ∃ x', h.doubleComplement? (.compare op lhs' rhs') = some x' ∧
          h.tree x' = g.tree x := by
        simpa [hd, eq_comm] using hdouble
      -- the operand of a double complement is two levels down
      have hlt : x < rhs := wg.child_lt (Graph.mem_children_of_doubleComplement? hd)
      have hlt' : x' < rhs' := wh.child_lt (Graph.mem_children_of_doubleComplement? hd')
      have hrhs : rhs < e := wg.child_lt (by simp [hx, Expr.children])
      have hrhs' : rhs' < e' := wh.child_lt (by simp [hy, Expr.children])
      simp only [hd, hd', below x (by lia) x' (by lia) hinner.symm]
  | @select cond cond' ifTrue ifTrue' ifFalse ifFalse' hcond htrue hfalse =>
    have hc := child cond (by simp [Expr.children]) cond' (by simp [Expr.children]) hcond
    have ht := child ifTrue (by simp [Expr.children]) ifTrue' (by simp [Expr.children]) htrue
    have hf := child ifFalse (by simp [Expr.children]) ifFalse' (by simp [Expr.children]) hfalse
    simp only [hc, ht, hf]

/-- Expressions with the same tree have the same code, or cannot be lowered for the same reason. -/
theorem lower_eq_of_tree_eq (hlocals : env.WithoutLocals) (he : e < g.size) (he' : e' < h.size)
    (htree : g.tree e = h.tree e') : env.lower g e = env.lower h e' := by
  induction e using Nat.strong_induction_on generalizing e' with
  | _ e ih =>
    rw [lower_eq wg he, lower_eq wh he']
    apply nodeCode_eq_of_tree_eq wg wh hlocals he he' htree
    intro x hx x' hx' hxtree
    exact ih x hx (by lia) (by lia) hxtree

end Environment

namespace Lowerer

def lowerEach (lowerer : Lowerer) : List NodeId → List (Except Error Code)
  | [] => []
  | e :: es =>
    let (answer, lowerer) := lowerer.lower e
    answer :: lowerer.lowerEach es

theorem lower_fst (lowerer : Lowerer) (e : NodeId) :
    (lowerer.lower e).1 = lowerer.env.lower lowerer.graph e := by
  unfold Environment.lower lower
  rfl

theorem lower_snd (lowerer : Lowerer) (e : NodeId) :
    ∃ lowered, (lowerer.lower e).2 = { lowerer with lowered } := by
  unfold lower
  split <;> exact ⟨_, rfl⟩

theorem lowerEach_eq_map (lowerer : Lowerer) (es : List NodeId) :
    lowerer.lowerEach es = es.map (lowerer.env.lower lowerer.graph) := by
  induction es generalizing lowerer with
  | nil => rfl
  | cons e es ih =>
    obtain ⟨lowered, hnext⟩ := lowerer.lower_snd e
    simp only [lowerEach, List.map_cons, lower_fst, hnext, ih]

/-- Without variables bound to positions, expressions of the same structure have the same code or
fail with the same error. A lowering answers every call of a sequence, whatever it was used for
before, as the first call of a new one is answered. -/
theorem answers_eq_of_sameStructure (env : Environment) (g : Graph) :
    (g.WellFormed → env.WithoutLocals → ∀ l < g.size, ∀ r < g.size, g.sameStructure l r = true →
      env.lower g l = env.lower g r) ∧
    ∀ (lowered : Answers Code) (es : List NodeId),
      lowerEach { env, graph := g, lowered } es = es.map fun e =>
        (lower { env, graph := g } e).1 := by
  refine ⟨fun wf hlocals l hl r hr hsame => ?_, fun lowered es => lowerEach_eq_map _ es⟩
  exact Environment.lower_eq_of_tree_eq wf wf hlocals hl hr ((wf.sameStructure_iff hl hr).1 hsame)

/-- Twice a header field, once from one shared node and once from two. A read that fails comes
first, and the table holds wrong code at the start. -/
theorem answers_eq_of_shared_field :
    let header : Variable := ⟨"header", .unsigned 16⟩
    let env : Environment := { symbols := ({} : SymbolTable).declare "header" header }
    let g : Graph :=
      { nodes := #[⟨.constant ⟨0, 32⟩, 32⟩, ⟨.read 0 0, 8⟩, ⟨.constant ⟨1, 32⟩, 32⟩, ⟨.read 0 2, 8⟩,
          ⟨.concat 3 1, 16⟩, ⟨.binary .add 4 4, 16⟩, ⟨.constant ⟨0, 32⟩, 32⟩, ⟨.read 1 6, 8⟩,
          ⟨.read 1 2, 8⟩, ⟨.concat 8 7, 16⟩, ⟨.binary .add 9 4, 16⟩, ⟨.read 2 0, 8⟩]
        roots := #[.symbolic "header" 2, .symbolic "header" 2, .symbolic "trailer" 2] }
    let twice : Code := .binary .add (.var header) (.var header) (.unsigned 16)
    let wrong : Answers Code := (∅ : Answers Code).insert 5 (.scalar .byte 0)
    g.WellFormed ∧ env.WithoutLocals ∧ g.sameStructure 5 10 = true ∧ env.lower g 5 = .ok twice ∧
      env.lower g 10 = .ok twice ∧
      ∃ err, lowerEach { env, graph := g, lowered := wrong } [11, 5, 10] =
        [.error err, .ok twice, .ok twice] := by
  intro header env g twice wrong
  have wf : g.WellFormed := by decide +kernel
  have hlocals : env.WithoutLocals := by simp [Environment.WithoutLocals, env, SymbolTable.declare]
  have same : g.sameStructure 5 10 = true := by decide +kernel
  have shared : env.lower g 5 = .ok twice := by decide +kernel
  obtain ⟨structural, fresh⟩ := answers_eq_of_sameStructure env g
  have copied := (structural wf hlocals 5 (by decide) 10 (by decide) same).symm.trans shared
  obtain ⟨err, failed⟩ : ∃ err, env.lower g 11 = .error err :=
    ⟨.unresolved "trailer" env.dump, by decide +kernel⟩
  refine ⟨wf, hlocals, same, shared, copied, err, (fresh wrong [11, 5, 10]).trans ?_⟩
  exact congrArg₂ List.cons failed (congrArg₂ List.cons shared (congrArg (·::[]) copied))

end Lowerer

end BitvectorCode
