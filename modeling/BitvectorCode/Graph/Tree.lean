import BitvectorCode.Graph.Basic

/-!
# Expressions as trees

The tree of an expression is what its graph says when positions and sharing are forgotten: every
node is written out wherever it is used, and roots are given by name, size and contents.
-/

namespace BitvectorCode

inductive Tree where
  | constant (c : Constant)
  | read (root : Root) (index : Tree)
  | concat (high low : Tree)
  | extract (inner : Tree) (offset width : Nat)
  | zeroExtend (inner : Tree) (width : Nat)
  | signExtend (inner : Tree) (width : Nat)
  | not (inner : Tree)
  | binary (op : BinaryOp) (lhs rhs : Tree)
  | compare (op : CompareOp) (lhs rhs : Tree)
  | select (cond ifTrue ifFalse : Tree)
deriving DecidableEq, Inhabited

def Tree.width : Tree → Nat
  | constant c => c.bits
  | read _ _ => 8
  | concat high low => high.width + low.width
  | extract _ _ width | zeroExtend _ width | signExtend _ width => width
  | not inner => inner.width
  | binary _ lhs _ => lhs.width
  | compare _ _ _ => 1
  | select _ ifTrue _ => ifTrue.width

namespace Graph

def treeWithin (g : Graph) : (depth : Nat) → NodeId → Tree
  | 0, _ => default
  | depth + 1, e =>
    let tree := g.treeWithin depth
    match g.expr e with
    | .constant c => .constant c
    | .read r index => .read (g.root r) (tree index)
    | .concat high low => .concat (tree high) (tree low)
    | .extract inner offset width => .extract (tree inner) offset width
    | .zeroExtend inner => .zeroExtend (tree inner) (g.width e)
    | .signExtend inner => .signExtend (tree inner) (g.width e)
    | .not inner => .not (tree inner)
    | .binary op lhs rhs => .binary op (tree lhs) (tree rhs)
    | .compare op lhs rhs => .compare op (tree lhs) (tree rhs)
    | .select cond ifTrue ifFalse => .select (tree cond) (tree ifTrue) (tree ifFalse)

def tree (g : Graph) (e : NodeId) : Tree := g.treeWithin g.size e

/-- In a well-formed graph a node only refers back, so its own position bounds its depth. -/
theorem treeWithin_eq_of_lt {g : Graph}
    (back : ∀ e, ∀ child ∈ (g.expr e).children, child < e) {m n : Nat} {e : NodeId}
    (hm : e < m) (hn : e < n) : g.treeWithin m e = g.treeWithin n e := by
  induction m generalizing n e with
  | zero => lia
  | succ m ih =>
    obtain ⟨n, rfl⟩ : ∃ k, n = k + 1 := ⟨n - 1, by lia⟩
    have below : ∀ child ∈ (g.expr e).children, g.treeWithin m child = g.treeWithin n child :=
      fun child hc => by
        have := back e child hc
        exact ih (by lia) (by lia)
    unfold treeWithin
    cases he : g.expr e <;> simp_all [Expr.children]

end Graph

end BitvectorCode
