import BitvectorCode.Graph.Tree
import BitvectorCode.Graph.WellFormed
import BitvectorCode.Proofs.Outcome

/-!
# Unfolding a well-formed graph

In a well-formed graph every node is the root of a tree whose parts are the trees of its children.
The sort rule of a node is stated here on the widths of its children, so that it carries over to any
other children of the same widths, and to trees. A larger graph gives the same trees.
-/

namespace BitvectorCode

/-- The sort rule of a node of `width` bits, given the widths of its children. -/
def Expr.SortRule (widthOf : NodeId → Nat) (width : Nat) : Expr → Prop
  | constant c => width = c.bits
  | read _ _ => width = 8
  | concat high low => width = widthOf high + widthOf low
  | extract inner offset w => offset + w ≤ widthOf inner ∧ 0 < w ∧ width = w
  | zeroExtend inner | signExtend inner => widthOf inner ≤ width
  | not inner => width = widthOf inner
  | binary _ lhs rhs => widthOf lhs = widthOf rhs ∧ width = widthOf lhs
  | compare _ lhs rhs => widthOf lhs = widthOf rhs ∧ width = 1
  | select cond ifTrue ifFalse =>
    widthOf cond = 1 ∧ widthOf ifTrue = widthOf ifFalse ∧ width = widthOf ifTrue

theorem Expr.SortRule.withChildren {old new : NodeId → Nat} {width : Nat} {e e' : Expr}
    {ids : List NodeId} (h : e.SortRule old width) (he : e.withChildren? ids = some e')
    (hw : ids.map new = e.children.map old) : e'.SortRule new width := by
  unfold Expr.withChildren? at he
  split at he <;> simp_all [Expr.children, SortRule] <;> subst_vars <;> simp_all

theorem Expr.SortRule.congr {old new : NodeId → Nat} {width : Nat} {x : Expr}
    (h : x.SortRule old width) (hw : ∀ child ∈ x.children, new child = old child) :
    x.SortRule new width := by
  cases x <;> simp_all [Expr.SortRule, Expr.children]

theorem Expr.roots_of_withChildren? {e e' : Expr} {ids : List NodeId}
    (h : e.withChildren? ids = some e') : e'.roots = e.roots := by
  unfold Expr.withChildren? at h
  split at h <;> simp_all <;> subst_vars <;> rfl

theorem Expr.eq_read_of_mem_roots {x : Expr} {r : RootId} (h : r ∈ x.roots) :
    ∃ index, x = read r index := by
  cases x <;> simp_all [roots]

theorem Expr.constant?_of_withChildren? {e e' : Expr} {ids : List NodeId}
    (h : e.withChildren? ids = some e') (hne : ids ≠ e.children) : e'.constant? = none := by
  unfold Expr.withChildren? at h
  split at h <;> simp_all [Expr.children] <;> subst_vars <;> rfl

def Expr.unfold (g : Graph) (width : Nat) (tree : NodeId → Tree) : Expr → Tree
  | constant c => .constant c
  | read r index => .read (g.root r) (tree index)
  | concat high low => .concat (tree high) (tree low)
  | extract inner offset w => .extract (tree inner) offset w
  | zeroExtend inner => .zeroExtend (tree inner) width
  | signExtend inner => .signExtend (tree inner) width
  | not inner => .not (tree inner)
  | binary op lhs rhs => .binary op (tree lhs) (tree rhs)
  | compare op lhs rhs => .compare op (tree lhs) (tree rhs)
  | select cond ifTrue ifFalse => .select (tree cond) (tree ifTrue) (tree ifFalse)

theorem Expr.unfold_congr {g h : Graph} {width : Nat} {s t : NodeId → Tree} {e : Expr}
    (hr : ∀ r ∈ e.roots, g.root r = h.root r) (hc : ∀ child ∈ e.children, s child = t child) :
    e.unfold g width s = e.unfold h width t := by
  cases e <;> simp_all [unfold, children, roots]

/-- The parts of a tree obey the sort rules, and its constants fit. -/
def Tree.WellSorted : Tree → Prop
  | constant c => c.Valid
  | read _ index => index.WellSorted
  | concat high low => high.WellSorted ∧ low.WellSorted
  | extract inner offset width => inner.WellSorted ∧ offset + width ≤ inner.width ∧ 0 < width
  | zeroExtend inner width | signExtend inner width => inner.WellSorted ∧ inner.width ≤ width
  | not inner => inner.WellSorted
  | binary _ lhs rhs | compare _ lhs rhs =>
    lhs.WellSorted ∧ rhs.WellSorted ∧ lhs.width = rhs.width
  | select cond ifTrue ifFalse =>
    cond.WellSorted ∧ ifTrue.WellSorted ∧ ifFalse.WellSorted ∧
      cond.width = 1 ∧ ifTrue.width = ifFalse.width

theorem Expr.width_unfold {g : Graph} {widthOf : NodeId → Nat} {width : Nat} {tree : NodeId → Tree}
    {e : Expr} (hs : e.SortRule widthOf width)
    (hc : ∀ child ∈ e.children, (tree child).width = widthOf child) :
    (e.unfold g width tree).width = width := by
  cases e <;> simp_all [SortRule, unfold, Tree.width, children]

theorem Expr.wellSorted_unfold {g : Graph} {widthOf : NodeId → Nat} {width : Nat}
    {tree : NodeId → Tree} {e : Expr} (hs : e.SortRule widthOf width)
    (hv : ∀ c, e = constant c → c.Valid)
    (hc : ∀ child ∈ e.children, (tree child).WellSorted ∧ (tree child).width = widthOf child) :
    (e.unfold g width tree).WellSorted := by
  cases e <;> simp_all [SortRule, unfold, Tree.WellSorted, children]

namespace Graph

variable {g h : Graph} {e : NodeId}

theorem getElem?_nodes_of_lt (he : e < g.size) : g.nodes[e]? = some (g.node e) := by
  have h : e < g.nodes.size := he
  simp [node, Array.getD_eq_getD_getElem?, h]

theorem node_of_getElem? {node : Node} (hn : g.nodes[e]? = some node) : g.node e = node := by
  simp [Graph.node, Array.getD_eq_getD_getElem?, hn]

theorem lt_size_of_getElem? {node : Node} (hn : g.nodes[e]? = some node) : e < g.size :=
  (Array.getElem?_eq_some_iff.1 hn).1

theorem width?_eq_ok_iff {w : Nat} : g.width? e = .ok w ↔ e < g.size ∧ g.width e = w := by
  unfold width?
  by_cases he : e < g.size
  · simp [getElem?_nodes_of_lt he, he, width]
  · have hn : g.nodes[e]? = none := Array.getElem?_eq_none (Nat.not_lt.1 he)
    simp [hn, he]

theorem commonWidth_eq_ok_iff {l r w : Nat} : g.commonWidth l r = .ok w ↔
    l < g.size ∧ r < g.size ∧ g.width l = g.width r ∧ w = g.width l := by
  simp only [commonWidth, bind_eq_ok_iff, width?_eq_ok_iff]
  constructor
  · intro h
    rcases h with ⟨a, ⟨hl, rfl⟩, b, ⟨hr, rfl⟩, h⟩
    split at h <;> simp_all
  · intro h
    rcases h with ⟨hl, hr, hw, rfl⟩
    exact ⟨_, ⟨hl, rfl⟩, _, ⟨hr, rfl⟩, by simp [hw]⟩

theorem sortOf_eq_ok_iff {w : Nat} {x : Expr} : g.sortOf w x = .ok w ↔
    (∀ child ∈ x.children, child < g.size) ∧ x.SortRule g.width w := by
  cases x with
  | constant c => simp [sortOf, Expr.SortRule, Expr.children, eq_comm]
  | read r index =>
    simp [sortOf, Expr.SortRule, Expr.children, bind_eq_ok_iff, width?_eq_ok_iff, @eq_comm _ w]
  | concat high low =>
    simp only [sortOf, Expr.SortRule, Expr.children, bind_eq_ok_iff, width?_eq_ok_iff]
    constructor
    · intro h
      rcases h with ⟨_, ⟨hh, rfl⟩, _, ⟨hl, rfl⟩, h⟩
      simp_all
    · intro h
      rcases h with ⟨hc, rfl⟩
      exact ⟨_, ⟨hc high (by simp), rfl⟩, _, ⟨hc low (by simp), rfl⟩, rfl⟩
  | extract inner offset width =>
    simp only [sortOf, Expr.SortRule, Expr.children, bind_eq_ok_iff, width?_eq_ok_iff]
    constructor
    · intro h
      rcases h with ⟨_, ⟨hi, rfl⟩, h⟩
      split at h
      · cases h
      · cases h
        exact ⟨by simpa using hi, by omega, by omega, rfl⟩
    · intro h
      rcases h with ⟨hc, hb, hp, rfl⟩
      exact ⟨_, ⟨hc inner (by simp), rfl⟩, if_neg (by omega)⟩
  | zeroExtend inner | signExtend inner =>
    simp only [sortOf, Expr.SortRule, Expr.children, bind_eq_ok_iff, width?_eq_ok_iff]
    constructor
    · intro h
      rcases h with ⟨_, ⟨hi, rfl⟩, h⟩
      split at h
      · cases h
      · exact ⟨by simpa using hi, by omega⟩
    · intro h
      rcases h with ⟨hc, hw⟩
      exact ⟨_, ⟨hc inner (by simp), rfl⟩, if_neg (by omega)⟩
  | not inner => simp [sortOf, Expr.SortRule, Expr.children, width?_eq_ok_iff, @eq_comm _ w]
  | binary op lhs rhs =>
    simp only [sortOf, Expr.SortRule, Expr.children, commonWidth_eq_ok_iff]
    simp [and_assoc]
  | compare op lhs rhs =>
    simp only [sortOf, Expr.SortRule, Expr.children, bind_eq_ok_iff, commonWidth_eq_ok_iff]
    simp [and_assoc, @eq_comm _ w]
  | select cond ifTrue ifFalse =>
    simp only [sortOf, Expr.SortRule, Expr.children, bind_eq_ok_iff, width?_eq_ok_iff]
    constructor
    · intro h
      rcases h with ⟨_, ⟨hc, rfl⟩, h⟩
      split at h
      · cases h
      · next h1 =>
        obtain ⟨ht, hf, htf, hw⟩ := commonWidth_eq_ok_iff.1 h
        exact ⟨by simp [hc, ht, hf], by omega, htf, hw⟩
    · intro h
      rcases h with ⟨hc, h1, htf, hw⟩
      refine ⟨_, ⟨hc cond (by simp), rfl⟩, ?_⟩
      rw [if_neg (by omega)]
      exact commonWidth_eq_ok_iff.2 ⟨hc ifTrue (by simp), hc ifFalse (by simp), htf, hw⟩

instance decidableNodeOk (g : Graph) (e : NodeId) (node : Node) : Decidable (g.NodeOk e node) :=
  have : Decidable (g.sortOf node.width node.expr = .ok node.width) := decEqOutcome _ _
  decidable_of_iff ((∀ child ∈ node.expr.children, child < e) ∧
      (∀ root ∈ node.expr.roots, root < g.roots.size) ∧
      g.sortOf node.width node.expr = .ok node.width ∧ ∀ c ∈ node.expr.constant?, c.Valid)
    ⟨fun h => ⟨h.1, h.2.1, h.2.2.1, h.2.2.2⟩, fun h => ⟨h.1, h.2, h.3, h.4⟩⟩

/-- Whether a graph is well formed can be read off its nodes one by one. -/
instance decidableWellFormed (g : Graph) : Decidable g.WellFormed :=
  decidable_of_iff (∀ e : Fin g.size, g.NodeOk e (g.node e))
    ⟨fun h e _ hn => node_of_getElem? hn ▸ h ⟨e, lt_size_of_getElem? hn⟩,
      fun wf e => wf e _ (getElem?_nodes_of_lt e.isLt)⟩

namespace WellFormed

variable (wf : g.WellFormed)
include wf

theorem nodeOk (he : e < g.size) : g.NodeOk e (g.node e) := wf e _ (getElem?_nodes_of_lt he)

/-- A node only refers back. This holds of every position, as one that was never given out has no
children. -/
theorem child_lt {child : NodeId} (hc : child ∈ (g.expr e).children) : child < e := by
  by_cases he : e < g.size
  · exact (wf.nodeOk he).children_lt child hc
  · have hn : g.nodes[e]? = none := Array.getElem?_eq_none (Nat.not_lt.1 he)
    simp [expr, node, Array.getD_eq_getD_getElem?, hn, default, instInhabitedNode.default,
      instInhabitedExpr.default, Expr.children] at hc

theorem child_lt_size (he : e < g.size) {child : NodeId} (hc : child ∈ (g.expr e).children) :
    child < g.size :=
  Nat.lt_trans (wf.child_lt hc) he

theorem sortRule (he : e < g.size) : (g.expr e).SortRule g.width (g.width e) :=
  (sortOf_eq_ok_iff.1 (wf.nodeOk he).sortOf_eq).2

theorem root_lt (he : e < g.size) {r : RootId} (hr : r ∈ (g.expr e).roots) : r < g.roots.size :=
  (wf.nodeOk he).roots_lt r hr

theorem constant_valid (he : e < g.size) {c : Constant} (hc : g.expr e = .constant c) : c.Valid :=
  (wf.nodeOk he).constant_valid c (by rw [show (g.node e).expr = _ from hc]; rfl)

theorem tree_eq (he : e < g.size) : g.tree e = (g.expr e).unfold g (g.width e) g.tree := by
  obtain ⟨n, hn⟩ : ∃ n, g.size = n + 1 := ⟨g.size - 1, by lia⟩
  have below : ∀ child ∈ (g.expr e).children, g.treeWithin n child = g.tree child := by
    intro child hc
    have := wf.child_lt hc
    exact treeWithin_eq_of_lt (fun _ _ => wf.child_lt) (by lia) (by lia)
  have step : g.tree e = (g.expr e).unfold g (g.width e) (g.treeWithin n) := by
    rw [tree, hn, treeWithin]
    cases g.expr e <;> rfl
  rw [step]
  exact Expr.unfold_congr (fun _ _ => rfl) below

theorem expr_of_tree_constant (he : e < g.size) {c : Constant} (h : g.tree e = .constant c) :
    g.expr e = .constant c := by
  rw [wf.tree_eq he] at h
  cases hx : g.expr e with
  | constant d =>
    rw [hx] at h
    cases h
    rfl
  | _ =>
    rw [hx] at h
    cases h

theorem tree_of_expr_constant (he : e < g.size) {c : Constant} (h : g.expr e = .constant c) :
    g.tree e = .constant c := by
  rw [wf.tree_eq he, h]
  rfl

theorem width_tree (he : e < g.size) : (g.tree e).width = g.width e := by
  induction e using Nat.strong_induction_on with
  | _ e ih =>
    rw [wf.tree_eq he]
    exact Expr.width_unfold (wf.sortRule he) fun child hc =>
      ih child (wf.child_lt hc) (wf.child_lt_size he hc)

theorem wellSorted_tree (he : e < g.size) : (g.tree e).WellSorted := by
  induction e using Nat.strong_induction_on with
  | _ e ih =>
    rw [wf.tree_eq he]
    apply Expr.wellSorted_unfold (wf.sortRule he) (fun c => wf.constant_valid he)
    intro child hc
    have hlt := wf.child_lt_size he hc
    exact ⟨ih child (wf.child_lt hc) hlt, wf.width_tree hlt⟩

end WellFormed

namespace IsExtendedBy

variable (gh : g.IsExtendedBy h)
include gh

theorem node_eq (he : e < g.size) : h.node e = g.node e :=
  node_of_getElem? (gh.nodes e _ (getElem?_nodes_of_lt he))

theorem expr_eq (he : e < g.size) : h.expr e = g.expr e := congrArg Node.expr (gh.node_eq he)

theorem width_eq (he : e < g.size) : h.width e = g.width e := congrArg Node.width (gh.node_eq he)

theorem lt_size (he : e < g.size) : e < h.size :=
  lt_size_of_getElem? (gh.nodes e _ (getElem?_nodes_of_lt he))

theorem root_eq {r : RootId} (hr : r < g.roots.size) : h.root r = g.root r := by
  have old : g.roots[r]? = some (g.root r) := by simp [root, Array.getD_eq_getD_getElem?, hr]
  simp [root, Array.getD_eq_getD_getElem?, gh.roots r _ old, hr]

theorem roots_size_le : g.roots.size ≤ h.roots.size := by
  by_contra hlt
  have hr : h.roots.size < g.roots.size := Nat.not_le.1 hlt
  have old : g.roots[h.roots.size]? = some (g.root h.roots.size) := by
    simp [root, Array.getD_eq_getD_getElem?, hr]
  have := gh.roots _ _ old
  simp at this

theorem tree_eq (wg : g.WellFormed) (wh : h.WellFormed) (he : e < g.size) :
    h.tree e = g.tree e := by
  induction e using Nat.strong_induction_on with
  | _ e ih =>
    rw [wg.tree_eq he, wh.tree_eq (gh.lt_size he), gh.expr_eq he, gh.width_eq he]
    exact Expr.unfold_congr (fun r hr => gh.root_eq (wg.root_lt he hr)) fun child hc =>
      ih child (wg.child_lt hc) (wg.child_lt_size he hc)

end IsExtendedBy

end Graph

end BitvectorCode
