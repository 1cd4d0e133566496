import BitvectorCode.Proofs.Rewrite.Table

/-!
# Passes and trees

When the tree of what a callback answers depends on the tree of what it is asked about alone, a pass
rewrites trees: it does at every node, from the leaves up, what the callback does there, and it
fails where the first such step from the left fails. Sharing and the table of the pass make no
difference.
-/

namespace BitvectorCode

namespace Tree

/-- Rewrites a tree from its leaves up: `step` answers for a node whose parts are rewritten. -/
def rewriteUp (step : Tree → Except Error Tree) : Tree → Except Error Tree
  | constant c => step (constant c)
  | read root index => do
    let index ← index.rewriteUp step
    step (read root index)
  | concat high low => do
    let high ← high.rewriteUp step
    let low ← low.rewriteUp step
    step (concat high low)
  | extract inner offset width => do
    let inner ← inner.rewriteUp step
    step (extract inner offset width)
  | zeroExtend inner width => do
    let inner ← inner.rewriteUp step
    step (zeroExtend inner width)
  | signExtend inner width => do
    let inner ← inner.rewriteUp step
    step (signExtend inner width)
  | not inner => do
    let inner ← inner.rewriteUp step
    step (not inner)
  | binary op lhs rhs => do
    let lhs ← lhs.rewriteUp step
    let rhs ← rhs.rewriteUp step
    step (binary op lhs rhs)
  | compare op lhs rhs => do
    let lhs ← lhs.rewriteUp step
    let rhs ← rhs.rewriteUp step
    step (compare op lhs rhs)
  | select cond ifTrue ifFalse => do
    let cond ← cond.rewriteUp step
    let ifTrue ← ifTrue.rewriteUp step
    let ifFalse ← ifFalse.rewriteUp step
    step (select cond ifTrue ifFalse)

end Tree

theorem Expr.rewriteUp_unfold {g h : Graph} {width : Nat} {s t : NodeId → Tree} {x y : Expr}
    {ids : List NodeId} {step : Tree → Except Error Tree}
    (hids : List.Forall₂ (fun child r => (s child).rewriteUp step = .ok (t r)) x.children ids)
    (hy : x.withChildren? ids = some y) (hr : ∀ r ∈ x.roots, h.root r = g.root r) :
    (x.unfold g width s).rewriteUp step = step (y.unfold h width t) := by
  unfold Expr.withChildren? at hy
  split at hy <;> cases hy <;>
    simp_all [Expr.children, Expr.roots, Expr.unfold, Tree.rewriteUp, bind, Except.bind]

theorem Expr.rewriteUp_unfold_eq_error {g : Graph} {width : Nat} {s : NodeId → Tree} {x : Expr}
    {before after : List NodeId} {child : NodeId} {step : Tree → Except Error Tree} {err : Error}
    (hx : x.children = before ++ child :: after)
    (hbefore : ∀ b ∈ before, ∃ t, (s b).rewriteUp step = .ok t)
    (hchild : (s child).rewriteUp step = .error err) :
    (x.unfold g width s).rewriteUp step = .error err := by
  choose! t ht using hbefore
  cases x <;> rcases before with _ | ⟨b, _ | ⟨c, _ | ⟨d, before⟩⟩⟩ <;>
    simp_all [Expr.children, Expr.unfold, Tree.rewriteUp, bind, Except.bind]

variable {σ : Type}

/-- A callback answers about a node with a node whose tree is what `step` makes of the tree, and
fails where `step` does. -/
def Callback.Steps (notesOk : Graph → σ → Prop) (step : Tree → Except Error Tree)
    (callback : Callback σ) : Prop :=
  ∀ {g : Graph} {notes : σ} {e : NodeId}, g.WellFormed → notesOk g notes → e < g.size →
    Ensures (· = ⟨g, notes⟩) (callback e)
      (fun new s => step (g.tree e) = .ok (s.graph.tree (new.getD e)))
      fun err _ => step (g.tree e) = .error err

namespace Pass

variable {notesOk : Graph → σ → Prop} {fails : Error → Prop} {callback : Callback σ}
variable {g₀ : Graph} {step : Tree → Except Error Tree}

def RewritesTrees (step : Tree → Except Error Tree) (g₀ : Graph) (s : Pass σ) : Prop :=
  Remembered (fun n r => (g₀.tree n).rewriteUp step = .ok (s.graph.tree r)) s.replacements

theorem RewritesTrees.grow {inv : Pass σ → Prop} {s : Pass σ} {h : Graph}
    (hr : RewritesTrees step g₀ s) (hs : Holds notesOk g₀ inv s) (gh : s.graph.Grows h) :
    Remembered (fun n r => (g₀.tree n).rewriteUp step = .ok (h.tree r)) s.replacements :=
  hr.imp fun n r hn htree => by
    rw [gh.tree_eq hs.grows.wellFormed (hs.sound.replaced n r hn).2.1]
    exact htree

theorem RewritesTrees.step_rebuilt {s : Pass σ} {e m : NodeId} {ids : List NodeId}
    (wf : g₀.WellFormed) (hr : RewritesTrees step g₀ s) (grown : g₀.Grows s.graph)
    (hm : Rebuilt g₀ s e ids m) :
    (g₀.tree e).rewriteUp step = step (s.graph.tree m) := by
  rw [wf.tree_eq hm.lt, grown.wellFormed.tree_eq hm.lt_size, hm.width]
  exact Expr.rewriteUp_unfold (hm.children.imp fun child r h => hr child r h) hm.expr
    fun r h => grown.isExtendedBy.root_eq (wf.root_lt hm.lt h)

theorem keeps_rewritesTrees (wf : g₀.WellFormed) (hc : callback.Sound notesOk fails)
    (hsteps : callback.Steps notesOk step) :
    Keeps notesOk callback g₀ (RewritesTrees step g₀)
      fun e err => (g₀.tree e).rewriteUp step = .error err where
  grow := fun hs gh _ _ => hs.inv.grow hs gh
  step := by
    intro s e ids m hs hm
    have tree := hs.inv.step_rebuilt wf hs.grows hm
    have answered := (hc.ensures hs.grows.wellFormed hs.sound.notes hm.lt_size).and
      (hsteps hs.grows.wellFormed hs.sound.notes hm.lt_size)
    refine answered.weaken (fun _ h => h) ?_ fun err t h => tree.trans h.2
    rintro new t ⟨-, hnew⟩ grown
    exact (hs.inv.grow hs grown).insert (tree.trans hnew)
  up := by
    intro s e before after child err hs he hsplit hbefore herr
    rw [wf.tree_eq he]
    refine Expr.rewriteUp_unfold_eq_error hsplit (fun b hb => ?_) herr
    obtain ⟨r, hr⟩ := hbefore b hb
    exact ⟨_, hs.inv b r hr⟩

/-- A pass that starts with an empty table rewrites the tree of its expression. -/
theorem rewrite_rewritesTrees (wf : g₀.WellFormed) (hc : callback.Sound notesOk fails)
    (hsteps : callback.Steps notesOk step) (notes : σ) (hn : notesOk g₀ notes) {e : NodeId}
    (he : e < g₀.size) :
    Ensures (· = ⟨g₀, ∅, notes⟩) (rewrite callback e)
      (fun r t => (g₀.tree e).rewriteUp step = .ok (t.graph.tree r))
      fun err _ => (g₀.tree e).rewriteUp step = .error err := by
  have start : Holds notesOk g₀ (RewritesTrees step g₀) ⟨g₀, ∅, notes⟩ :=
    ⟨wf.grows, sound_start hn, remembered_empty⟩
  refine (rewrite_keeps hc (keeps_rewritesTrees wf hc hsteps) wf he start).weaken (fun _ h => h) ?_
    fun _ _ h => h
  rintro r t ⟨-, ht, hr⟩
  exact ht.inv e r hr

end Pass

end BitvectorCode
