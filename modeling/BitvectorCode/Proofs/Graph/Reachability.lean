import BitvectorCode.Proofs.Graph.Growth
import Mathlib.Logic.Relation

/-!
# Reachable nodes

The nodes below an expression are those that its children lead to, the expression itself among them.
In a well-formed graph they are not above it, and they stay the same when the graph grows. A walk
that stops at certain nodes reaches the others around these, and may list each node once, after its
children. What a tree reads is what the reachable nodes read.
-/

namespace BitvectorCode

namespace Graph

/-- Going from children to children leads from `e` to `n`. -/
def Reaches (g : Graph) : NodeId → NodeId → Prop :=
  Relation.ReflTransGen fun e child => child ∈ (g.expr e).children

/-- Going from children to children leads from `e` to `n`, and no node on the way, whether it is one
of the ends or between them, is in `stops`. -/
inductive ReachesAround (g : Graph) (stops : NodeId → Prop) : NodeId → NodeId → Prop
  | refl {e : NodeId} : ¬ stops e → ReachesAround g stops e e
  | of_child {e child n : NodeId} : ¬ stops e → child ∈ (g.expr e).children →
      ReachesAround g stops child n → ReachesAround g stops e n

/-- Nodes come after their children, none comes twice, and none is in `stops`. Children in `stops`
do not count. -/
inductive ChildrenFirstAround (g : Graph) (stops : NodeId → Prop) : List NodeId → Prop
  | nil : ChildrenFirstAround g stops []
  | snoc {nodes : List NodeId} {e : NodeId} (before : ChildrenFirstAround g stops nodes)
      (new : e ∉ nodes) (free : ¬ stops e)
      (children : ∀ child ∈ (g.expr e).children, stops child ∨ child ∈ nodes) :
      ChildrenFirstAround g stops (nodes ++ [e])

variable {g h : Graph} {e n : NodeId} {stops stops' : NodeId → Prop} {nodes : List NodeId}

theorem Reaches.refl (e : NodeId) : g.Reaches e e := Relation.ReflTransGen.refl

theorem Reaches.of_child {child : NodeId} (hc : child ∈ (g.expr e).children)
    (h : g.Reaches child n) :
    g.Reaches e n :=
  Relation.ReflTransGen.head hc h

theorem reaches_iff : g.Reaches e n ↔ n = e ∨ ∃ child ∈ (g.expr e).children, g.Reaches child n :=
  Relation.ReflTransGen.cases_head_iff.trans (or_congr eq_comm Iff.rfl)

/-- Whatever holds of an expression and passes from every node to its children holds of all
reachable nodes. -/
theorem Reaches.closed {p : NodeId → Prop} (hr : g.Reaches e n) (he : p e)
    (hp : ∀ m, p m → ∀ child ∈ (g.expr m).children, p child) : p n := by
  induction hr with
  | refl => exact he
  | tail _ hc ih => exact hp _ ih _ hc

theorem Reaches.le (hr : g.Reaches e n) (wf : g.WellFormed) : n ≤ e :=
  hr.closed (p := (· ≤ e)) (Nat.le_refl e) fun m hm child hc => by
    have := wf.child_lt hc
    lia

theorem Reaches.lt_size (hr : g.Reaches e n) (wf : g.WellFormed) (he : e < g.size) : n < g.size :=
  Nat.lt_of_le_of_lt (hr.le wf) he

theorem ReachesAround.reaches (hr : g.ReachesAround stops e n) : g.Reaches e n := by
  induction hr with
  | refl _ => exact .refl _
  | of_child _ hc _ ih => exact .of_child hc ih

theorem ReachesAround.mono (hr : g.ReachesAround stops e n) (h : ∀ m, stops' m → stops m) :
    g.ReachesAround stops' e n := by
  induction hr with
  | refl he => exact .refl fun hs => he (h _ hs)
  | of_child he hc _ ih => exact .of_child (fun hs => he (h _ hs)) hc ih

theorem ReachesAround.not_stops (hr : g.ReachesAround stops e n) : ¬ stops n := by
  induction hr with
  | refl he => exact he
  | of_child _ _ _ ih => exact ih

/-- Whatever holds of an expression and passes to the children of all nodes but the stops holds of
every node that is reached around these. -/
theorem ReachesAround.closed {p : NodeId → Prop} (hr : g.ReachesAround stops e n) (he : p e)
    (hp : ∀ m, p m → ¬ stops m → ∀ child ∈ (g.expr m).children, p child) : p n := by
  induction hr with
  | refl _ => exact he
  | of_child hs hc _ ih => exact ih (hp _ he hs _ hc)

namespace ChildrenFirstAround

theorem nodup (h : g.ChildrenFirstAround stops nodes) : nodes.Nodup := by
  induction h with
  | nil => exact List.nodup_nil
  | snoc before new free children ih =>
    refine List.nodup_append.2 ⟨ih, List.pairwise_singleton _ _, fun a ha b hb => ?_⟩
    rw [List.mem_singleton.1 hb]
    exact ne_of_mem_of_not_mem ha new

theorem not_stops (h : g.ChildrenFirstAround stops nodes) (hn : n ∈ nodes) : ¬ stops n := by
  induction h with
  | nil => cases hn
  | snoc before new free children ih =>
    obtain hn | hn := List.mem_append.1 hn
    · exact ih hn
    · exact List.mem_singleton.1 hn ▸ free

theorem children_mem (h : g.ChildrenFirstAround stops nodes) {before after : List NodeId}
    (hsplit : nodes = before ++ n :: after) :
    ∀ child ∈ (g.expr n).children, stops child ∨ child ∈ before := by
  induction h generalizing after with
  | nil => simp at hsplit
  | @snoc nodes last first new free children ih =>
    rcases List.eq_nil_or_concat after with rfl | ⟨after, last', rfl⟩
    · obtain ⟨rfl, hlast⟩ := List.append_inj' hsplit rfl
      cases hlast
      exact children
    · rw [List.concat_eq_append, ← List.cons_append, ← List.append_assoc] at hsplit
      exact ih (List.append_inj' hsplit rfl).1

theorem closed (h : g.ChildrenFirstAround stops nodes) (hn : n ∈ nodes) :
    ∀ child ∈ (g.expr n).children, stops child ∨ child ∈ nodes := by
  obtain ⟨before, after, rfl⟩ := List.append_of_mem hn
  exact fun child hc => (h.children_mem rfl child hc).imp_right (List.mem_append_left _)

end ChildrenFirstAround

theorem Grows.reaches_iff (gh : g.Grows h) (wf : g.WellFormed) (he : e < g.size) :
    h.Reaches e n ↔ g.Reaches e n := by
  constructor
  · intro hr
    have both : n < g.size ∧ g.Reaches e n := by
      refine hr.closed (p := fun n => n < g.size ∧ g.Reaches e n) ⟨he, .refl e⟩
        fun m hm child hc => ?_
      rw [gh.expr_eq hm.1] at hc
      exact ⟨wf.child_lt_size hm.1 hc, Relation.ReflTransGen.tail hm.2 hc⟩
    exact both.2
  · intro hr
    have both : n < g.size ∧ h.Reaches e n := by
      refine hr.closed (p := fun n => n < g.size ∧ h.Reaches e n) ⟨he, .refl e⟩
        fun m hm child hc => ?_
      refine ⟨wf.child_lt_size hm.1 hc, Relation.ReflTransGen.tail hm.2 ?_⟩
      rwa [gh.expr_eq hm.1]
    exact both.2

end Graph

/-- Some read in the tree, at whatever depth, has the property `p` of its root and index. -/
def Tree.AnyRead (p : Root → Tree → Prop) : Tree → Prop
  | constant _ => False
  | read root index => p root index ∨ index.AnyRead p
  | extract inner _ _ | zeroExtend inner _ | signExtend inner _ | not inner => inner.AnyRead p
  | concat lhs rhs | binary _ lhs rhs | compare _ lhs rhs => lhs.AnyRead p ∨ rhs.AnyRead p
  | select cond ifTrue ifFalse => cond.AnyRead p ∨ ifTrue.AnyRead p ∨ ifFalse.AnyRead p

theorem Expr.anyRead_unfold {g : Graph} {width : Nat} {tree : NodeId → Tree} {x : Expr}
    {p : Root → Tree → Prop} : (x.unfold g width tree).AnyRead p ↔
      (∃ root index, x = .read root index ∧ p (g.root root) (tree index)) ∨
        ∃ child ∈ x.children, (tree child).AnyRead p := by
  cases x with
  | read root index =>
    simp only [unfold, Tree.AnyRead, children, List.mem_singleton, exists_eq_left]
    refine or_congr_left ⟨fun hp => ⟨root, index, rfl, hp⟩, ?_⟩
    rintro ⟨_, _, ⟨⟩, hp⟩
    exact hp
  | _ => simp [unfold, Tree.AnyRead, children]

namespace Graph

variable {g : Graph} {e : NodeId} {p : Root → Tree → Prop}

def ReadsWith (g : Graph) (p : Root → Tree → Prop) (n : NodeId) : Prop :=
  ∃ root index, g.expr n = .read root index ∧ p (g.root root) (g.tree index)

theorem readsWith_iff {root : RootId} {index : NodeId} (hx : g.expr e = .read root index) :
    g.ReadsWith p e ↔ p (g.root root) (g.tree index) := by
  refine ⟨?_, fun h => ⟨root, index, hx, h⟩⟩
  rintro ⟨_, _, hx', h⟩
  cases hx.symm.trans hx'
  exact h

theorem WellFormed.anyRead_tree_iff (wf : g.WellFormed) (he : e < g.size) :
    (g.tree e).AnyRead p ↔ ∃ n, g.Reaches e n ∧ g.ReadsWith p n := by
  induction e using Nat.strong_induction_on with
  | _ e ih =>
    rw [wf.tree_eq he, Expr.anyRead_unfold]
    constructor
    · rintro (hread | ⟨child, hc, hp⟩)
      · exact ⟨e, .refl e, hread⟩
      · obtain ⟨n, hr, hread⟩ := (ih child (wf.child_lt hc) (wf.child_lt_size he hc)).1 hp
        exact ⟨n, .of_child hc hr, hread⟩
    · rintro ⟨n, hr, hread⟩
      obtain rfl | ⟨child, hc, hr⟩ := reaches_iff.1 hr
      · exact .inl hread
      · exact .inr ⟨child, hc,
          (ih child (wf.child_lt hc) (wf.child_lt_size he hc)).2 ⟨n, hr, hread⟩⟩

end Graph

end BitvectorCode
