import BitvectorCode.Proofs.Eval.Evaluation
import BitvectorCode.Proofs.Graph.Structure

/-!
# Outcomes of equal structure

Comparing structures decides whether the trees of two expressions are equal, however their parts are
shared and wherever they are stored. Having the same structure is therefore an equivalence, and it
implies having the same outcome, whatever the symbolic bytes are.
-/

namespace BitvectorCode.Graph

variable {g : Graph} {l r : NodeId}

theorem WellFormed.eval_eq_of_tree_eq (wf : g.WellFormed) (hl : l < g.size) (hr : r < g.size)
    (h : g.tree l = g.tree r) : g.eval l = g.eval r := by
  rw [eval_eq_tree wf hl, h, eval_eq_tree wf hr]

/-- Two expressions have the same structure exactly when their trees are equal. So having the same
structure is an equivalence, and two expressions that do have one outcome, a value or a failure:
when they are evaluated as they are, and for every choice of symbolic bytes. -/
theorem WellFormed.sameStructure_spec (wf : g.WellFormed) :
    (∀ l < g.size, ∀ r < g.size, g.sameStructure l r = true ↔ g.tree l = g.tree r) ∧
    Equivalence (fun l r : Fin g.size => g.sameStructure l r = true) ∧
    ∀ l < g.size, ∀ r < g.size, g.sameStructure l r = true →
      g.eval l = g.eval r ∧ ∀ bytes, (g.tree l).eval bytes = (g.tree r).eval bytes := by
  have trees : ∀ l < g.size, ∀ r < g.size, g.sameStructure l r = true ↔ g.tree l = g.tree r :=
    fun l hl r hr => wf.sameStructure_iff hl hr
  refine ⟨trees, ⟨fun e => ?_, fun {l r} hlr => ?_, fun {l m r} hlm hmr => ?_⟩,
    fun l hl r hr hlr => ?_⟩
  · exact (trees e e.isLt e e.isLt).2 rfl
  · exact (trees r r.isLt l l.isLt).2 ((trees l l.isLt r r.isLt).1 hlr).symm
  · have hlm := (trees l l.isLt m m.isLt).1 hlm
    have hmr := (trees m m.isLt r r.isLt).1 hmr
    exact (trees l l.isLt r r.isLt).2 (hlm.trans hmr)
  · have htree := (trees l hl r hr).1 hlr
    exact ⟨wf.eval_eq_of_tree_eq hl hr htree, fun bytes => by rw [htree]⟩

/-- A byte put beside itself, and two reads of it from roots that are alike; the first byte is read
once and the others twice. -/
theorem WellFormed.sameStructure_of_shared_byte :
    let table : Root := .known "table" [7, 9]
    let g : Graph :=
      { nodes := #[⟨.constant ⟨1, 32⟩, 32⟩, ⟨.read 0 0, 8⟩, ⟨.concat 1 1, 16⟩,
          ⟨.constant ⟨1, 32⟩, 32⟩, ⟨.read 1 3, 8⟩, ⟨.read 0 3, 8⟩, ⟨.concat 4 5, 16⟩]
        roots := #[table, table] }
    g.WellFormed ∧ 2 < g.size ∧ 6 < g.size ∧ g.sameStructure 2 6 = true ∧ g.tree 2 = g.tree 6 ∧
      g.sameStructure 6 2 = true ∧ g.eval 2 = .ok ⟨0x909, 16⟩ ∧ g.eval 6 = .ok ⟨0x909, 16⟩ := by
  intro table g
  have wf : g.WellFormed := by decide +kernel
  have h2 : 2 < g.size := by decide
  have h6 : 6 < g.size := by decide
  obtain ⟨trees, equivalence, outcomes⟩ := wf.sameStructure_spec
  have same : g.sameStructure 2 6 = true := by decide +kernel
  have value : g.eval 2 = .ok ⟨0x909, 16⟩ := by decide +kernel
  exact ⟨wf, h2, h6, same, (trees 2 h2 6 h6).1 same,
    equivalence.symm (x := ⟨2, h2⟩) (y := ⟨6, h6⟩) same, value,
    (outcomes 2 h2 6 h6 same).1.symm.trans value⟩

end BitvectorCode.Graph
