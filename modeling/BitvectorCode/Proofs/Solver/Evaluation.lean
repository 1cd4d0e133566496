import BitvectorCode.Proofs.Eval.Structure
import BitvectorCode.Solver.Oracle

/-!
# The oracle that evaluates

The oracle that compares structures and values calls two expressions equal exactly when their trees
are equal or when both have the same value without any symbolic byte. Either way they have one
outcome whatever the symbolic bytes are, and the answers fit together when one pair is decided by
structure and the next by value.
-/

namespace BitvectorCode

namespace Graph

variable {g : Graph} {l m r : NodeId} {c d : Constant}

theorem WellFormed.eq_of_value_eq (wf : g.WellFormed) (hl : l < g.size) (hr : r < g.size)
    (hw : g.width l = g.width r) (hc : g.eval l = .ok c) (hd : g.eval r = .ok d)
    (h : c.value = d.value) : c = d := by
  rw [eval_eq_tree wf hl] at hc
  rw [eval_eq_tree wf hr] at hd
  have hcb := (Tree.eval_fits (wf.wellSorted_tree hl) hc).1
  have hdb := (Tree.eval_fits (wf.wellSorted_tree hr) hd).1
  rw [wf.width_tree hl, hw, ← wf.width_tree hr, ← hdb] at hcb
  cases c
  cases d
  simp_all

theorem WellFormed.eval_tree (wf : g.WellFormed) (hl : l < g.size) (h : g.eval l = .ok c)
    (bytes : Bytes) :
    (g.tree l).eval bytes = .ok c :=
  Tree.eval_of_none bytes ((eval_eq_tree wf hl).symm.trans h)

theorem ground_eq_ok_some_iff : g.ground l = .ok (some c) ↔ g.eval l = .ok c := by
  unfold ground
  split
  · next hd => simp [hd]
  · next herr => simp [herr]
  · next herr => simp [herr]

theorem width_eq_of_provablyEqual {b : Bool} (h : g.provablyEqual l r = .ok b) :
    g.width l = g.width r := by
  by_contra hw
  simp [provablyEqual, hw, throw, throwThe, MonadExceptOf.throw, bind, Except.bind] at h

theorem WellFormed.provablyEqual_of_tree_eq (wf : g.WellFormed) (hl : l < g.size) (hr : r < g.size)
    (h : g.tree l = g.tree r) : g.provablyEqual l r = .ok true := by
  have hw := wf.width_eq_of_tree_eq hl hr h
  have hstructure : l = r ∨ g.sameStructure l r := .inr ((wf.sameStructure_iff hl hr).2 h)
  unfold provablyEqual
  rw [if_neg (not_not.2 hw), if_pos hstructure]
  rfl

theorem WellFormed.provablyEqual_of_tree_ne (wf : g.WellFormed) (hl : l < g.size) (hr : r < g.size)
    (h : g.tree l ≠ g.tree r) (hw : g.width l = g.width r) : g.provablyEqual l r = (do
      let left ← g.ground l
      let right ← g.ground r
      match left, right with
      | some c, some d => return c == d
      | _, _ => return false) := by
  have hstructure : ¬ (l = r ∨ g.sameStructure l r) := by
    rw [wf.sameStructure_iff hl hr]
    rintro (rfl | heq)
    · exact h rfl
    · exact h heq
  unfold provablyEqual
  rw [if_neg (not_not.2 hw)]
  exact if_neg hstructure

theorem WellFormed.provablyEqual_of_values (wf : g.WellFormed) (hl : l < g.size) (hr : r < g.size)
    (hw : g.width l = g.width r) (hc : g.eval l = .ok c) (hd : g.eval r = .ok d) :
    g.provablyEqual l r = .ok (c == d) := by
  by_cases htree : g.tree l = g.tree r
  · have hcd : c = d := Except.ok.inj (hc.symm.trans ((wf.eval_eq_of_tree_eq hl hr htree).trans hd))
    rw [wf.provablyEqual_of_tree_eq hl hr htree, hcd, beq_self_eq_true]
  · rw [wf.provablyEqual_of_tree_ne hl hr htree hw, ground_eq_ok_some_iff.2 hc,
      ground_eq_ok_some_iff.2 hd]
    rfl

/-- Equality is proved by equal trees or by equal values. -/
theorem WellFormed.provablyEqual_iff (wf : g.WellFormed) (hl : l < g.size) (hr : r < g.size) :
    g.provablyEqual l r = .ok true ↔
      g.tree l = g.tree r ∨ g.width l = g.width r ∧ ∃ c, g.eval l = .ok c ∧ g.eval r = .ok c := by
  constructor
  · intro h
    by_cases htree : g.tree l = g.tree r
    · exact .inl htree
    have hw := width_eq_of_provablyEqual h
    rw [wf.provablyEqual_of_tree_ne hl hr htree hw] at h
    obtain ⟨left, hleft, h⟩ := bind_eq_ok_iff.1 h
    obtain ⟨right, hright, h⟩ := bind_eq_ok_iff.1 h
    cases left with
    | none => cases h
    | some c =>
      cases right with
      | none => cases h
      | some d =>
        have hcd : c = d := by simpa [pure, Except.pure] using h
        exact .inr ⟨hw, c, ground_eq_ok_some_iff.1 hleft, ground_eq_ok_some_iff.1 (hcd ▸ hright)⟩
  · rintro (htree | ⟨hw, c, hc, hd⟩)
    · exact wf.provablyEqual_of_tree_eq hl hr htree
    · rw [wf.provablyEqual_of_values hl hr hw hc hd, beq_self_eq_true]

end Graph

namespace Oracle

variable {σ : Type}

def equal? (oracle : Oracle σ) (s : σ) (g : Graph) (constraints : ConstraintSet) (l r : NodeId) :
    Option Bool :=
  answer? (oracle.alwaysEqual g constraints l r s)

theorem equal?_evaluation_iff {s : σ} {g : Graph} {constraints : ConstraintSet} {l r : NodeId}
    {b : Bool} : evaluation.equal? s g constraints l r = some b ↔ g.provablyEqual l r = .ok b := by
  change answer? ((ofExcept (g.provablyEqual l r) : EStateM Error σ Bool) s) = some b ↔ _
  cases g.provablyEqual l r with
  | error err =>
    change none = some b ↔ _
    simp only [reduceCtorEq]
  | ok b' =>
    change some b' = some b ↔ _
    rw [Option.some.injEq, Except.ok.injEq]

/-- The oracle that evaluates is sound. Expressions it calls equal have one outcome, a value or a
failure, whatever the symbolic bytes are, and expressions with values that it does not call equal
have different ones. What it calls equal is symmetric and transitive, and holds of any two
expressions with one tree and any two of one width with one value. -/
theorem evaluation_sound (s : σ) {g : Graph} (wf : g.WellFormed) (constraints : ConstraintSet)
    {l m r : NodeId} (hl : l < g.size) (hm : m < g.size) (hr : r < g.size) :
    (evaluation.equal? s g constraints l r = some true →
      ∀ bytes, (g.tree l).eval bytes = (g.tree r).eval bytes) ∧
    (evaluation.equal? s g constraints l r = some false →
      ∀ c d, g.eval l = .ok c → g.eval r = .ok d → c.value ≠ d.value) ∧
    (evaluation.equal? s g constraints l r = some true →
      evaluation.equal? s g constraints r l = some true) ∧
    (evaluation.equal? s g constraints l m = some true →
      evaluation.equal? s g constraints m r = some true →
      evaluation.equal? s g constraints l r = some true) ∧
    (g.tree l = g.tree r → evaluation.equal? s g constraints l r = some true) ∧
    (g.width l = g.width r → ∀ c, g.eval l = .ok c → g.eval r = .ok c →
      evaluation.equal? s g constraints l r = some true) := by
  simp only [equal?_evaluation_iff, wf.provablyEqual_iff hl hr, wf.provablyEqual_iff hr hl,
    wf.provablyEqual_iff hl hm, wf.provablyEqual_iff hm hr]
  refine ⟨?_, ?_, ?_, ?_, .inl, fun hw c hc hd => .inr ⟨hw, c, hc, hd⟩⟩
  · rintro (htree | ⟨-, c, hc, hd⟩) bytes
    · rw [htree]
    · rw [wf.eval_tree hl hc, wf.eval_tree hr hd]
  · intro h c d hc hd heq
    have hw := Graph.width_eq_of_provablyEqual h
    have hcd := wf.eq_of_value_eq hl hr hw hc hd heq
    rw [wf.provablyEqual_of_values hl hr hw hc hd, hcd, beq_self_eq_true] at h
    cases h
  · rintro (htree | ⟨hw, c, hc, hd⟩)
    · exact .inl htree.symm
    · exact .inr ⟨hw.symm, c, hd, hc⟩
  · rintro (hlm | ⟨hwl, c, hcl, hcm⟩) (hmr | ⟨hwr, d, hdm, hdr⟩)
    · exact .inl (hlm.trans hmr)
    · have hwl := wf.width_eq_of_tree_eq hl hm hlm
      exact .inr ⟨hwl.trans hwr, d, (wf.eval_eq_of_tree_eq hl hm hlm).trans hdm, hdr⟩
    · have hwr := wf.width_eq_of_tree_eq hm hr hmr
      exact .inr ⟨hwl.trans hwr, c, hcl, (wf.eval_eq_of_tree_eq hm hr hmr).symm.trans hcm⟩
    · have hcd : c = d := Except.ok.inj (hcm.symm.trans hdm)
      exact .inr ⟨hwl.trans hwr, c, hcl, hcd ▸ hdr⟩

/-- One sum is equal to another by structure, that one to a constant by value, so the first is equal
to the constant. -/
theorem evaluation_sound_of_sums :
    let g : Graph :=
      { nodes := #[⟨.constant ⟨2, 8⟩, 8⟩, ⟨.constant ⟨3, 8⟩, 8⟩, ⟨.binary .add 0 1, 8⟩,
          ⟨.binary .add 0 1, 8⟩, ⟨.constant ⟨5, 8⟩, 8⟩] }
    g.WellFormed ∧ 2 < g.size ∧ 3 < g.size ∧ 4 < g.size ∧
      evaluation.equal? () g {} 2 3 = some true ∧ evaluation.equal? () g {} 3 4 = some true ∧
      evaluation.equal? () g {} 2 4 = some true := by
  intro g
  have wf : g.WellFormed := by decide +kernel
  have h2 : 2 < g.size := by decide
  have h3 : 3 < g.size := by decide
  have h4 : 4 < g.size := by decide
  have first : evaluation.equal? () g {} 2 3 = some true := by decide +kernel
  have second : evaluation.equal? () g {} 3 4 = some true := by decide +kernel
  obtain ⟨-, -, -, trans, -⟩ := evaluation_sound () wf {} h2 h3 h4
  exact ⟨wf, h2, h3, h4, first, second, trans first second⟩

end Oracle

end BitvectorCode
