import BitvectorCode.Proofs.Graph.Unfolding

/-!
# Growing a well-formed graph

What is added to a well-formed graph keeps it well formed and keeps what was there. Each builder is
described by what it adds, or that it adds nothing wrong before it fails. The graph that a run
started from is a parameter throughout, so that the steps of a run compose.
-/

namespace BitvectorCode

namespace Graph

/-- A well-formed graph in which everything of `g` is where it was. -/
structure Grows (g h : Graph) : Prop where
  isExtendedBy : g.IsExtendedBy h
  wellFormed : h.WellFormed

variable {g h k : Graph} {e : NodeId}

theorem WellFormed.grows (wf : g.WellFormed) : g.Grows g := ⟨.refl g, wf⟩

theorem Grows.trans (gh : g.Grows h) (hk : h.Grows k) : g.Grows k :=
  ⟨gh.isExtendedBy.trans hk.isExtendedBy, hk.wellFormed⟩

theorem Grows.lt_size (gh : g.Grows h) (he : e < g.size) : e < h.size := gh.isExtendedBy.lt_size he

theorem Grows.size_le (gh : g.Grows h) : g.size ≤ h.size :=
  Nat.le_of_not_lt fun hlt => Nat.lt_irrefl _ (gh.lt_size hlt)

theorem Grows.width_eq (gh : g.Grows h) (he : e < g.size) : h.width e = g.width e :=
  gh.isExtendedBy.width_eq he

theorem Grows.expr_eq (gh : g.Grows h) (he : e < g.size) : h.expr e = g.expr e :=
  gh.isExtendedBy.expr_eq he

theorem Grows.tree_eq (gh : g.Grows h) (wf : g.WellFormed) (he : e < g.size) :
    h.tree e = g.tree e :=
  gh.isExtendedBy.tree_eq wf gh.wellFormed he

theorem NodeOk.mono {node : Node} (ok : g.NodeOk e node) (gh : g.IsExtendedBy h) :
    h.NodeOk e node := by
  obtain ⟨hc, hs⟩ := sortOf_eq_ok_iff.1 ok.sortOf_eq
  exact ⟨ok.children_lt, fun r hr => Nat.lt_of_lt_of_le (ok.roots_lt r hr) gh.roots_size_le,
    sortOf_eq_ok_iff.2 ⟨fun c hm => gh.lt_size (hc c hm),
      hs.congr fun c hm => gh.width_eq (hc c hm)⟩,
    ok.constant_valid⟩

theorem size_push (node : Node) : (g.push node).size = g.size + 1 := Array.size_push ..

theorem lt_size_push (node : Node) : g.size < (g.push node).size := by
  rw [size_push]
  exact Nat.lt_succ_self _

theorem node_push (node : Node) : (g.push node).node g.size = node := by
  simp [Graph.node, push, size, Array.getD_eq_getD_getElem?]

theorem WellFormed.push (wf : g.WellFormed) (node : Node) (ok : g.NodeOk g.size node) :
    g.Grows (g.push node) := by
  have ext := isExtendedBy_push g node
  refine ⟨ext, fun e n hn => ?_⟩
  rw [Graph.push, Array.getElem?_push] at hn
  split at hn
  · next he =>
    cases hn
    subst he
    exact ok.mono ext
  · exact (wf e n hn).mono ext

theorem WellFormed.grows_push (wf : g.WellFormed) {expr : Expr} {width : Nat}
    (hc : ∀ child ∈ expr.children, child < g.size) (hr : ∀ r ∈ expr.roots, r < g.roots.size)
    (hs : expr.SortRule g.width width) (hv : ∀ c, expr.constant? = some c → c.Valid) :
    g.Grows (g.push ⟨expr, width⟩) :=
  wf.push ⟨expr, width⟩ ⟨hc, hr, sortOf_eq_ok_iff.2 ⟨hc, hs⟩, hv⟩

theorem WellFormed.grows_push_constant (wf : g.WellFormed) {c : Constant} (hc : c.Valid) :
    g.Grows (g.push ⟨.constant c, c.bits⟩) :=
  wf.grows_push (by simp [Expr.children]) (by simp [Expr.roots]) (rfl : c.bits = c.bits)
    (by simpa [Expr.constant?] using hc)

theorem WellFormed.grows_push_read (wf : g.WellFormed) {r : RootId} {index : NodeId}
    (hr : r < g.roots.size) (hi : index < g.size) : g.Grows (g.push ⟨.read r index, 8⟩) :=
  wf.grows_push (by simpa [Expr.children] using hi) (by simpa [Expr.roots] using hr) (rfl : 8 = 8)
    (by simp [Expr.constant?])

theorem WellFormed.addRoot (wf : g.WellFormed) (root : Root) :
    g.Grows { g with roots := g.roots.push root } := by
  have ext : g.IsExtendedBy { g with roots := g.roots.push root } := by
    refine ⟨fun _ _ h => h, fun r old h => ?_⟩
    have hr := (Array.getElem?_eq_some_iff.1 h).1
    simpa [Array.getElem?_push, Nat.ne_of_lt hr] using h
  exact ⟨ext, fun e n hn => (wf e n hn).mono ext⟩

theorem WellFormed.tree_of_node (wf : g.WellFormed) (he : e < g.size) {expr : Expr} {width : Nat}
    (hn : g.node e = ⟨expr, width⟩) : g.tree e = expr.unfold g width g.tree := by
  rw [wf.tree_eq he, Graph.expr, Graph.width, hn]

theorem tree_push {expr : Expr} {width : Nat} (wf : g.WellFormed)
    (step : g.Grows (g.push ⟨expr, width⟩)) (hc : ∀ child ∈ expr.children, child < g.size)
    (hr : ∀ r ∈ expr.roots, r < g.roots.size) :
    (g.push ⟨expr, width⟩).tree g.size = expr.unfold g width g.tree := by
  rw [step.wellFormed.tree_of_node (lt_size_push _) (node_push _)]
  exact Expr.unfold_congr (fun r h => step.isExtendedBy.root_eq (hr r h)) fun child h =>
    step.tree_eq wf (hc child h)

/-- In a graph grown from `g₀`, the computation answers with a node as wide as the node `e` of `g₀`,
or fails in one of the ways `fails`. The graph grows on either way. -/
def Replaces {σ : Type} (graph : σ → Graph) (fails : Error → Prop) (g₀ : Graph) (e : NodeId)
    (x : EStateM Error σ NodeId) : Prop :=
  Ensures (fun s => g₀.Grows (graph s)) x
    (fun r s => g₀.Grows (graph s) ∧ r < (graph s).size ∧ (graph s).width r = g₀.width e)
    fun err s => g₀.Grows (graph s) ∧ fails err

theorem Replaces.bind {σ : Type} {graph : σ → Graph} {fails : Error → Prop} {g₀ : Graph}
    {x : EStateM Error σ NodeId} {f : NodeId → EStateM Error σ NodeId}
    (hx : Replaces graph fails g₀ e x)
    (hf : ∀ {g : Graph} {r : NodeId}, r < g.size → Replaces graph fails g r (f r)) :
    Replaces graph fails g₀ e (x >>= f) := by
  apply Ensures.bind (show Ensures _ x _ _ from hx)
  intro r s hpost
  obtain ⟨grown, hr, hw⟩ := hpost
  refine (Ensures.start (hf hr) grown.wellFormed.grows (fun r' t h => ?_) fun err t h => ?_) s rfl
  · exact ⟨grown.trans h.1, h.2.1, h.2.2.trans hw⟩
  · exact ⟨grown.trans h.1, h.2⟩

end Graph

namespace Build

variable {g₀ : Graph}

/-- In a graph grown from `g₀`, the builder answers with a node or fails, and the graph has only
grown on. -/
def Adds (g₀ : Graph) (x : Build NodeId) : Prop :=
  Ensures g₀.Grows x (fun e g => g₀.Grows g ∧ e < g.size) fun _ g => g₀.Grows g

theorem add_ensures {expr : Expr} {width : Nat} (hv : ∀ c, expr.constant? = some c → c.Valid) :
    Ensures (fun g => g₀.Grows g ∧ ∀ r ∈ expr.roots, r < g.roots.size) (add expr width)
      (fun e g => g₀.Grows g ∧ e < g.size ∧ g.node e = ⟨expr, width⟩) fun _ g => g₀.Grows g := by
  apply Ensures.bind_get
  intro g hg
  obtain ⟨grown, hr⟩ := hg
  cases hs : g.sortOf width expr with
  | error err => exact .throw fun _ h => h ▸ grown
  | ok expected =>
    by_cases hw : expected = width
    · subst hw
      simp only [if_true]
      rintro _ rfl
      have hc := (Graph.sortOf_eq_ok_iff.1 hs).1
      have step := grown.wellFormed.push ⟨expr, expected⟩ ⟨hc, hr, hs, hv⟩
      exact ⟨grown.trans step, Graph.lt_size_push _, Graph.node_push _⟩
    · simp only [if_neg hw]
      exact .throw fun _ h => h ▸ grown

theorem add_eq {g : Graph} {expr : Expr} {width : Nat}
    (hc : ∀ child ∈ expr.children, child < g.size) (hs : expr.SortRule g.width width) :
    add expr width g = .ok g.size (g.push ⟨expr, width⟩) := by
  have hsort := Graph.sortOf_eq_ok_iff.2 ⟨hc, hs⟩
  unfold add
  rw [get_bind_apply]
  simp only [hsort, if_true]
  rfl

theorem read_eq {g : Graph} {root : RootId} {index : NodeId} (hr : root < g.roots.size)
    (hi : index < g.size) : read root index g = .ok g.size (g.push ⟨.read root index, 8⟩) := by
  have hadd : add (.read root index) 8 g = _ :=
    add_eq (by simpa [Expr.children] using hi) (rfl : (8 : Nat) = 8)
  have run : read root index g =
      (if g.roots.size ≤ root then throw (.invalidRoot root) else add (.read root index) 8 :
        Build NodeId) g := rfl
  rw [run, if_neg (Nat.not_le.2 hr), hadd]

theorem operandWidth_eq {g : Graph} {e : NodeId} (he : e < g.size) :
    operandWidth e g = .ok (g.width e) g := by
  unfold operandWidth
  rw [get_bind_apply, Graph.width?_eq_ok_iff.2 ⟨he, rfl⟩]
  rfl

theorem concat_eq {g : Graph} {high low : NodeId} (hh : high < g.size) (hl : low < g.size) :
    concat high low g = .ok g.size (g.push ⟨.concat high low, g.width high + g.width low⟩) := by
  have hadd : add (.concat high low) (g.width high + g.width low) g = _ :=
    add_eq (by simp [Expr.children, hh, hl]) (rfl : g.width high + g.width low = _)
  unfold concat
  rw [bind_apply_of_ok (operandWidth_eq hh), bind_apply_of_ok (operandWidth_eq hl), hadd]

theorem add_adds {expr : Expr} {width : Nat} (hr : expr.roots = []) (hv : expr.constant? = none) :
    Adds g₀ (add expr width) :=
  (add_ensures (by simp [hv])).weaken (fun _ grown => ⟨grown, by simp [hr]⟩)
    (fun _ _ h => ⟨h.1, h.2.1⟩) fun _ _ h => h

theorem constant_adds {c : Constant} (hc : c.Valid) : Adds g₀ (constant c) := by
  intro g grown
  exact ⟨grown.trans (grown.wellFormed.grows_push_constant hc), Graph.lt_size_push _⟩

theorem operandWidth_ensures {e : NodeId} :
    Ensures g₀.Grows (operandWidth e) (fun _ g => g₀.Grows g) fun _ g => g₀.Grows g := by
  apply Ensures.bind_get
  intro g grown
  cases g.width? e with
  | ok width => exact .pure fun _ h => h ▸ grown
  | error err => exact .throw fun _ h => h ▸ grown

theorem read_adds {root : RootId} {index : NodeId} : Adds g₀ (read root index) := by
  apply Ensures.bind_get
  intro g grown
  by_cases hr : g.roots.size ≤ root
  · rw [if_pos hr]
    exact .throw fun _ h => h ▸ grown
  · rw [if_neg hr]
    refine (add_ensures (by simp [Expr.constant?])).weaken (fun _ h => h ▸ ⟨grown, ?_⟩)
      (fun _ _ h => ⟨h.1, h.2.1⟩) fun _ _ h => h
    simpa [Expr.roots] using hr

theorem readAt_adds {root : RootId} {index : Nat} : Adds g₀ (readAt root index) :=
  (constant_adds (Constant.ofNat_valid index 32)).bind fun _ =>
    Ensures.weaken_pre read_adds fun _ h => h.1

theorem concat_adds {high low : NodeId} : Adds g₀ (concat high low) :=
  operandWidth_ensures.bind fun _ => operandWidth_ensures.bind fun _ => add_adds rfl rfl

theorem readAbove_adds {root : RootId} {low : NodeId} {index bytes : Nat} :
    Ensures (fun g => g₀.Grows g ∧ low < g.size) (readAbove root low index bytes)
      (fun e g => g₀.Grows g ∧ e < g.size) fun _ g => g₀.Grows g := by
  induction bytes generalizing low index with
  | zero => exact fun g h => h
  | succ bytes ih =>
    apply Ensures.bind (Ensures.weaken_pre readAt_adds fun _ h => h.1)
    intro byte
    apply Ensures.bind (Ensures.weaken_pre concat_adds fun _ h => h.1)
    intro _
    exact ih

theorem readBytes_adds {root : RootId} {index bytes : Nat} :
    Adds g₀ (readBytes root index bytes) := by
  cases bytes with
  | zero => exact .throw fun _ h => h
  | succ bytes => exact readAt_adds.bind fun _ => readAbove_adds

theorem ofExpr_adds {width : Nat} {expr : Expr} (hv : ∀ c, expr.constant? = some c → c.Valid) :
    Adds g₀ (ofExpr width expr) := by
  cases expr with
  | constant c => exact constant_adds (hv c rfl)
  | read root index => exact read_adds
  | concat high low => exact concat_adds
  | extract inner offset width => exact add_adds rfl rfl
  | zeroExtend inner => exact add_adds rfl rfl
  | signExtend inner => exact add_adds rfl rfl
  | not inner => exact operandWidth_ensures.bind fun _ => add_adds rfl rfl
  | binary op lhs rhs => exact operandWidth_ensures.bind fun _ => add_adds rfl rfl
  | compare op lhs rhs => exact add_adds rfl rfl
  | select cond ifTrue ifFalse => exact operandWidth_ensures.bind fun _ => add_adds rfl rfl

end Build

end BitvectorCode
