import BitvectorCode.Graph.Structure
import BitvectorCode.Proofs.Graph.Unfolding

/-!
# Equal structure

Two expressions of a well-formed graph have the same structure exactly when their trees are equal.
Pairs are only remembered once their trees are known to be equal, so the table of pairs changes no
answer.
-/

namespace BitvectorCode

/-- From the states with the invariant `inv`, the computation tells whether `p` holds and keeps
`inv`. -/
def Decides {σ : Type} (inv : σ → Prop) (x : StateM σ Bool) (p : Prop) : Prop :=
  ∀ s, inv s → ((x s).1 = true ↔ p) ∧ inv (x s).2

namespace Decides

variable {σ α : Type} {inv : σ → Prop} {x y : StateM σ Bool} {p q : Prop}

theorem pure {b : Bool} (h : b = true ↔ p) : Decides inv (pure b) p := fun _ hs => ⟨h, hs⟩

theorem congr (h : Decides inv x p) (hpq : p ↔ q) : Decides inv x q :=
  fun s hs => ⟨(h s hs).1.trans hpq, (h s hs).2⟩

theorem and (hx : Decides inv x p) (hy : Decides inv y q) :
    Decides inv (do if ← x then y else return false) (p ∧ q) := by
  intro s hs
  obtain ⟨hp, hs'⟩ := hx s hs
  have run : (do if ← x then y else return false : StateM σ Bool) s =
      if (x s).1 then y (x s).2 else (false, (x s).2) := by
    change (if (x s).1 then y else Pure.pure false : StateM σ Bool) (x s).2 = _
    split <;> rfl
  rw [run]
  cases hb : (x s).1 with
  | false =>
    have hno : ¬ p := by simpa [hb] using hp
    simpa [hno] using hs'
  | true =>
    have hyes : p := hp.1 hb
    simpa [hyes] using hy _ hs'

theorem allM {p : α → Prop} {f : α → StateM σ Bool} {xs : List α}
    (hf : ∀ a ∈ xs, Decides inv (f a) (p a)) : Decides inv (xs.allM f) (∀ a ∈ xs, p a) := by
  induction xs with
  | nil => exact .pure (by simp)
  | cons a xs ih =>
    have rest := ih fun b hb => hf b (List.mem_cons_of_mem a hb)
    rw [List.allM_cons]
    exact (Decides.and (hf a List.mem_cons_self) rest).congr List.forall_mem_cons.symm

theorem known {shows : σ → Bool} (hs : ∀ s, inv s → shows s = true → p) (hx : Decides inv x p) :
    Decides inv (do if shows (← get) then return true else x) p := by
  intro s h
  change (((if shows s then Pure.pure true else x : StateM σ Bool) s).1 = true ↔ p) ∧
    inv ((if shows s then Pure.pure true else x : StateM σ Bool) s).2
  split
  · next hshows => exact ⟨iff_of_true rfl (hs s h hshows), h⟩
  · exact hx s h

theorem noting {note : σ → σ} (hx : Decides inv x p) (hn : ∀ s, p → inv s → inv (note s)) :
    Decides inv (do
      let b ← x
      if b then modify note
      return b) p := by
  intro s h
  obtain ⟨hp, hs⟩ := hx s h
  have run : (do
      let b ← x
      if b then modify note
      return b : StateM σ Bool) s = ((x s).1, if (x s).1 then note (x s).2 else (x s).2) := by
    change (if (x s).1 then _ else _ : StateM σ Bool) (x s).2 = _
    cases (x s).1 <;> rfl
  rw [run]
  refine ⟨hp, ?_⟩
  dsimp only
  split
  · next hb => exact hn _ (hp.1 hb) hs
  · exact hs

end Decides

namespace Graph

/-- Pairs of positions are ordered by the left one first. -/
local instance : Ord (NodeId × NodeId) := lexOrd

variable {g : Graph} {l r : NodeId}

theorem WellFormed.width_eq_of_tree_eq (wf : g.WellFormed) (hl : l < g.size) (hr : r < g.size)
    (h : g.tree l = g.tree r) : g.width l = g.width r := by
  rw [← wf.width_tree hl, h, wf.width_tree hr]

theorem WellFormed.tree_eq_tree_iff (wf : g.WellFormed) (hl : l < g.size) (hr : r < g.size)
    (hw : g.width l = g.width r) : g.tree l = g.tree r ↔ g.sameHead (g.expr l) (g.expr r) ∧
      ∀ pair ∈ (g.expr l).children.zip (g.expr r).children, g.tree pair.1 = g.tree pair.2 := by
  have sl := wf.sortRule hl
  have sr := wf.sortRule hr
  rw [wf.tree_eq hl, wf.tree_eq hr]
  cases hx : g.expr l <;> cases hy : g.expr r <;>
    simp_all [Expr.unfold, sameHead, Expr.children, Expr.SortRule, and_comm]

def EqualTrees (g : Graph) (known : EqualPairs) : Prop :=
  ∀ l r, known.contains (l, r) → g.tree l = g.tree r

theorem EqualTrees.insert {known : EqualPairs} (h : g.EqualTrees known)
    (heq : g.tree l = g.tree r) :
    g.EqualTrees (known.insert (l, r)) := by
  intro l' r' h'
  rw [Std.TreeSet.contains_insert, Bool.or_eq_true] at h'
  rcases h' with h' | h'
  · cases Std.LawfulEqCmp.eq_of_compare (eq_of_beq h')
    exact heq
  · exact h l' r' h'

/-- The comparison tells whether the trees are equal. The induction is on the depth, which bounds
the position of the left node. -/
theorem sameWithin_decides (wf : g.WellFormed) {depth : Nat} (hd : l < depth) (hl : l < g.size)
    (hr : r < g.size) : Decides g.EqualTrees (g.sameWithin depth l r) (g.tree l = g.tree r) := by
  induction depth generalizing l r with
  | zero => exact absurd hd (Nat.not_lt_zero l)
  | succ depth ih =>
    have below : ∀ pair ∈ (g.expr l).children.zip (g.expr r).children,
        Decides g.EqualTrees (g.sameWithin depth pair.1 pair.2)
          (g.tree pair.1 = g.tree pair.2) := by
      intro pair hpair
      obtain ⟨hlc, hrc⟩ := List.of_mem_zip hpair
      have := wf.child_lt hlc
      exact ih (by lia) (wf.child_lt_size hl hlc) (wf.child_lt_size hr hrc)
    unfold sameWithin
    split
    · next hsame => exact .pure (by simp [hsame])
    apply Decides.known fun known hknown => hknown l r
    split
    · next hhead =>
      obtain ⟨hw, hhead⟩ :
          g.width l = g.width r ∧ g.sameHead (g.expr l) (g.expr r) := by simpa using hhead
      have htree := (wf.tree_eq_tree_iff hl hr hw).trans (and_iff_right hhead)
      exact ((Decides.allM below).congr htree.symm).noting fun known heq hknown => hknown.insert heq
    · next hhead =>
      refine .pure ⟨nofun, fun htree => absurd ?_ hhead⟩
      have hw := wf.width_eq_of_tree_eq hl hr htree
      simpa [hw] using ((wf.tree_eq_tree_iff hl hr hw).1 htree).1

/-- Two expressions have the same structure exactly when their trees are equal. -/
theorem WellFormed.sameStructure_iff (wf : g.WellFormed) (hl : l < g.size) (hr : r < g.size) :
    g.sameStructure l r = true ↔ g.tree l = g.tree r := by
  have hd : l < g.size * g.size + 1 :=
    Nat.lt_succ_of_lt (Nat.lt_of_lt_of_le hl (Nat.le_mul_self g.size))
  have none : g.EqualTrees ∅ := by
    intro l r h
    simp at h
  exact (sameWithin_decides wf hd hl hr ∅ none).1

end Graph

end BitvectorCode
