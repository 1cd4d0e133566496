import BitvectorCode.Constant.Valid
import BitvectorCode.Graph.Basic

/-!
# Well-formed graphs

The builders start from the empty graph, so every node refers to earlier nodes and to roots that
exist, has the width its children give, and holds a constant that fits. A graph read back from a
saved form need not be of this kind. Growing is an order on graphs: an extension keeps every node
and every root at its position.
-/

namespace BitvectorCode

def Expr.roots : Expr → List RootId
  | read root _ => [root]
  | _ => []

namespace Graph

/-- What a well-formed graph promises of the node at one position. -/
structure NodeOk (g : Graph) (e : NodeId) (node : Node) : Prop where
  children_lt : ∀ child ∈ node.expr.children, child < e
  roots_lt : ∀ root ∈ node.expr.roots, root < g.roots.size
  sortOf_eq : g.sortOf node.width node.expr = .ok node.width
  constant_valid : ∀ c, node.expr.constant? = some c → c.Valid

def WellFormed (g : Graph) : Prop :=
  ∀ (e : NodeId) (node : Node), g.nodes[e]? = some node → g.NodeOk e node

/-- Every node of `g` and every root of `g` has the same position in `h`. -/
structure IsExtendedBy (g h : Graph) : Prop where
  nodes : ∀ (e : NodeId) (node : Node), g.nodes[e]? = some node → h.nodes[e]? = some node
  roots : ∀ (r : RootId) (root : Root), g.roots[r]? = some root → h.roots[r]? = some root

theorem IsExtendedBy.refl (g : Graph) : g.IsExtendedBy g := ⟨fun _ _ h => h, fun _ _ h => h⟩

theorem IsExtendedBy.trans {g h k : Graph} (gh : g.IsExtendedBy h) (hk : h.IsExtendedBy k) :
    g.IsExtendedBy k :=
  ⟨fun e node hn => hk.nodes e node (gh.nodes e node hn),
    fun r root hr => hk.roots r root (gh.roots r root hr)⟩

theorem isExtendedBy_push (g : Graph) (node : Node) : g.IsExtendedBy (g.push node) := by
  refine ⟨fun e n h => ?_, fun _ _ h => h⟩
  have he : e < g.nodes.size := (Array.getElem?_eq_some_iff.1 h).1
  simpa [push, Array.getElem?_push, Nat.ne_of_lt he] using h

theorem wellFormed_empty : WellFormed {} := by
  intro e node h
  simp at h

end Graph

end BitvectorCode
