import BitvectorCode.Graph.Render
import BitvectorCode.Proofs.Graph.Unfolding

/-!
# Nodes of equal trees

Two nodes with the same tree are of one kind and one width, have the same attributes, and their
children have the same trees again. This holds also when the nodes are stored in different graphs.
So whatever is found by going down from a node is found again below any node with its tree, as the
text of an expression shows.
-/

namespace BitvectorCode.Graph

variable {g h : Graph} {e e' : NodeId}

/-- The two expression nodes, of `g` and of `h`, have the same kind, the same attributes and
children with the same trees. -/
inductive Alike (g h : Graph) : Expr → Expr → Prop
  | constant (c : Constant) : Alike g h (.constant c) (.constant c)
  | read {r s : RootId} {index index' : NodeId} (root : g.root r = h.root s)
      (hindex : g.tree index = h.tree index') : Alike g h (.read r index) (.read s index')
  | concat {high high' low low' : NodeId} (hhigh : g.tree high = h.tree high')
      (hlow : g.tree low = h.tree low') : Alike g h (.concat high low) (.concat high' low')
  | extract {inner inner' : NodeId} (offset width : Nat) (hinner : g.tree inner = h.tree inner') :
      Alike g h (.extract inner offset width) (.extract inner' offset width)
  | zeroExtend {inner inner' : NodeId} (hinner : g.tree inner = h.tree inner') :
      Alike g h (.zeroExtend inner) (.zeroExtend inner')
  | signExtend {inner inner' : NodeId} (hinner : g.tree inner = h.tree inner') :
      Alike g h (.signExtend inner) (.signExtend inner')
  | not {inner inner' : NodeId} (hinner : g.tree inner = h.tree inner') :
      Alike g h (.not inner) (.not inner')
  | binary (op : BinaryOp) {lhs lhs' rhs rhs' : NodeId} (hlhs : g.tree lhs = h.tree lhs')
      (hrhs : g.tree rhs = h.tree rhs') : Alike g h (.binary op lhs rhs) (.binary op lhs' rhs')
  | compare (op : CompareOp) {lhs lhs' rhs rhs' : NodeId} (hlhs : g.tree lhs = h.tree lhs')
      (hrhs : g.tree rhs = h.tree rhs') : Alike g h (.compare op lhs rhs) (.compare op lhs' rhs')
  | select {cond cond' ifTrue ifTrue' ifFalse ifFalse' : NodeId}
      (hcond : g.tree cond = h.tree cond') (htrue : g.tree ifTrue = h.tree ifTrue')
      (hfalse : g.tree ifFalse = h.tree ifFalse') :
      Alike g h (.select cond ifTrue ifFalse) (.select cond' ifTrue' ifFalse')

namespace WellFormed

variable (wg : g.WellFormed) (wh : h.WellFormed)
include wg wh

theorem width_eq_width (he : e < g.size) (he' : e' < h.size) (htree : g.tree e = h.tree e') :
    g.width e = h.width e' := by
  rw [← wg.width_tree he, htree, wh.width_tree he']

theorem alike (he : e < g.size) (he' : e' < h.size) (htree : g.tree e = h.tree e') :
    Alike g h (g.expr e) (h.expr e') := by
  rw [wg.tree_eq he, wh.tree_eq he'] at htree
  cases hx : g.expr e <;> cases hy : h.expr e' <;> rw [hx, hy] at htree <;>
    simp only [Expr.unfold, Tree.constant.injEq, Tree.read.injEq, Tree.concat.injEq,
      Tree.extract.injEq, Tree.zeroExtend.injEq, Tree.signExtend.injEq, Tree.not.injEq,
      Tree.binary.injEq, Tree.compare.injEq, Tree.select.injEq, reduceCtorEq] at htree
  case constant.constant => exact htree ▸ .constant _
  case read.read => exact .read htree.1 htree.2
  case concat.concat => exact .concat htree.1 htree.2
  case extract.extract =>
    obtain ⟨hinner, rfl, rfl⟩ := htree
    exact .extract _ _ hinner
  case zeroExtend.zeroExtend => exact .zeroExtend htree.1
  case signExtend.signExtend => exact .signExtend htree.1
  case not.not => exact .not htree
  case binary.binary =>
    obtain ⟨rfl, hlhs, hrhs⟩ := htree
    exact .binary _ hlhs hrhs
  case compare.compare =>
    obtain ⟨rfl, hlhs, hrhs⟩ := htree
    exact .compare _ hlhs hrhs
  case select.select => exact .select htree.1 htree.2.1 htree.2.2

/-- Expressions with the same tree have the same text. The induction is on the depth, which bounds
the position of both nodes. -/
theorem renderWithin_eq {depth depth' : Nat} (hd : e < depth) (hd' : e' < depth') (he : e < g.size)
    (he' : e' < h.size) (htree : g.tree e = h.tree e') :
    g.renderWithin depth e = h.renderWithin depth' e' := by
  induction depth generalizing depth' e e' with
  | zero => exact absurd hd (Nat.not_lt_zero e)
  | succ depth ih =>
    obtain ⟨depth', rfl⟩ : ∃ n, depth' = n + 1 := ⟨depth' - 1, by lia⟩
    have below : ∀ child ∈ (g.expr e).children, ∀ child' ∈ (h.expr e').children,
        g.tree child = h.tree child' →
          g.renderWithin depth child = h.renderWithin depth' child' := by
      intro child hc child' hc' hchild
      have := wg.child_lt hc
      have := wh.child_lt hc'
      exact ih (by lia) (by lia) (wg.child_lt_size he hc) (wh.child_lt_size he' hc') hchild
    have hwidth := wg.width_eq_width wh he he' htree
    have like := wg.alike wh he he' htree
    unfold renderWithin
    rw [hwidth]
    generalize g.expr e = x at *
    generalize h.expr e' = y at *
    cases like <;> simp_all [Expr.children, Expr.mnemonic]

theorem render_eq (he : e < g.size) (he' : e' < h.size) (htree : g.tree e = h.tree e') :
    g.render e = h.render e' :=
  wg.renderWithin_eq wh he he' he he' htree

end WellFormed

end BitvectorCode.Graph
