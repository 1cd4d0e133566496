import BitvectorCode.Proofs.Rewrite.Fold

/-!
# The normal form of folding

A pass leaves a node behind where its callback has nothing to do: it has been asked there already,
and a node that came out of it is a leaf. So folding what is folded changes nothing, not even the
graph, and an expression without symbolic bytes and divisions by zero folds to its value.
-/

namespace BitvectorCode

open BitvectorCode.Graph

namespace Tree

variable {s t t' u : Tree} {step : Tree → Except Error Tree}

def Contains : Tree → Tree → Prop := Relation.ReflTransGen fun t part => part ∈ t.parts

theorem contains_iff : t.Contains u ↔ u = t ∨ ∃ part ∈ t.parts, part.Contains u :=
  Relation.ReflTransGen.cases_head_iff.trans (or_congr eq_comm Iff.rfl)

@[elab_as_elim]
theorem induction_parts {motive : Tree → Prop}
    (node : ∀ t, (∀ part ∈ t.parts, motive part) → motive t) (t : Tree) : motive t := by
  induction t <;> apply node <;> simp_all [parts]

theorem exists_step_of_rewriteUp (h : t.rewriteUp step = .ok t') :
    ∃ rebuilt, step rebuilt = .ok t' ∧
      ∀ part ∈ rebuilt.parts, ∃ old ∈ t.parts, old.rewriteUp step = .ok part := by
  cases t with
  | constant c => exact ⟨constant c, h, by simp [parts]⟩
  | read root inner | extract inner offset width | zeroExtend inner width | signExtend inner width
  | not inner =>
    obtain ⟨i, hi, h⟩ := bind_eq_ok_iff.1 h
    exact ⟨_, h, by simp [parts, hi]⟩
  | concat lhs rhs | binary op lhs rhs | compare op lhs rhs =>
    obtain ⟨l, hl, h⟩ := bind_eq_ok_iff.1 h
    obtain ⟨r, hr, h⟩ := bind_eq_ok_iff.1 h
    exact ⟨_, h, by simp [parts, hl, hr]⟩
  | select cond ifTrue ifFalse =>
    obtain ⟨c, hc, h⟩ := bind_eq_ok_iff.1 h
    obtain ⟨l, hl, h⟩ := bind_eq_ok_iff.1 h
    obtain ⟨r, hr, h⟩ := bind_eq_ok_iff.1 h
    exact ⟨_, h, by simp [parts, hc, hl, hr]⟩

/-- A step leaves a tree as it is or puts a leaf in its place that it would leave as it is. -/
def Settles (step : Tree → Except Error Tree) : Prop :=
  ∀ t t', step t = .ok t' → t' = t ∨ t'.parts = [] ∧ step t' = .ok t'

/-- Nowhere in a rewritten tree has such a step anything left to do. -/
theorem Settles.step_eq_self (hs : Settles step) (h : t.rewriteUp step = .ok t')
    (hu : t'.Contains u) : step u = .ok u := by
  induction t using induction_parts generalizing t' with
  | node t ih =>
    obtain ⟨rebuilt, hstep, hparts⟩ := exists_step_of_rewriteUp h
    obtain rfl | ⟨hleaf, hstays⟩ := hs rebuilt t' hstep
    · obtain rfl | ⟨part, hpart, hu⟩ := contains_iff.1 hu
      · exact hstep
      · obtain ⟨old, hold, hrewritten⟩ := hparts part hpart
        exact ih old hold hrewritten hu
    · obtain rfl | ⟨part, hpart, -⟩ := contains_iff.1 hu
      · exact hstays
      · simp [hleaf] at hpart

theorem foldStep_settles : Settles foldStep := by
  intro t t' h
  unfold foldStep at h
  split at h
  · exact .inl (Except.ok.inj h).symm
  split at h
  · exact .inl (Except.ok.inj h).symm
  split at h
  · cases h
    exact .inr ⟨rfl, rfl⟩
  · exact .inl (Except.ok.inj h).symm
  · exact .inl (Except.ok.inj h).symm
  · cases h

theorem eval_of_foldStep_eq_self (h : t.foldStep = .ok t) (hc : t.isConstant = false)
    (hp : t.parts.all isConstant = true) :
    (∃ name index, t.eval .none = .error (.symbolicRead name index)) ∨
      t.eval .none = .error .divisionByZero := by
  unfold foldStep at h
  rw [hc, hp] at h
  simp only [Bool.false_eq_true, Bool.not_true, if_false] at h
  split at h
  · cases h
    cases hc
  · exact .inl ⟨_, _, ‹_›⟩
  · exact .inr ‹_›
  · cases h

theorem foldStep_of_eval {c : Constant} (hc : t.isConstant = false)
    (hp : t.parts.all isConstant = true) (h : t.eval .none = .ok c) :
    t.foldStep = .ok (constant c) := by
  simp [foldStep, hc, hp, h]

end Tree

theorem Expr.eval_unfold_congr {g : Graph} {width : Nat} {s t : NodeId → Tree} {x : Expr}
    {bytes : Bytes} (h : ∀ child ∈ x.children,
      (s child).eval bytes = (t child).eval bytes ∧ (s child).width = (t child).width) :
    (x.unfold g width s).eval bytes = (x.unfold g width t).eval bytes := by
  cases x <;> simp_all [unfold, Tree.eval, children]

namespace Graph

variable {g : Graph} {e n : NodeId}

/-- Folding has nothing to do at a node: over constants it has no value, because a byte is symbolic
or a divisor is zero. -/
def Folded (g : Graph) (n : NodeId) : Prop :=
  (g.expr n).isConstant = false →
    (∀ child ∈ (g.expr n).children, (g.expr child).isConstant = true) →
      (∃ name index, g.eval n = .error (.symbolicRead name index)) ∨
        g.eval n = .error .divisionByZero

theorem Reaches.contains_tree (hr : g.Reaches e n) (wf : g.WellFormed) (he : e < g.size) :
    (g.tree e).Contains (g.tree n) := by
  have both : n < g.size ∧ (g.tree e).Contains (g.tree n) := by
    refine hr.closed (p := fun n => n < g.size ∧ (g.tree e).Contains (g.tree n)) ⟨he, .refl⟩
      fun m hm child hc => ⟨wf.child_lt_size hm.1 hc, hm.2.tail ?_⟩
    rw [wf.tree_eq hm.1, Expr.parts_unfold]
    exact List.mem_map_of_mem hc
  exact both.2

theorem WellFormed.folded_of_foldStep (wf : g.WellFormed) (he : e < g.size)
    (h : (g.tree e).foldStep = .ok (g.tree e)) : g.Folded e := by
  intro hc hchildren
  rw [eval_eq_tree wf he]
  refine Tree.eval_of_foldStep_eq_self h (by rwa [wf.isConstant_tree he]) ?_
  rwa [wf.all_isConstant_parts_tree he, List.all_eq_true]

theorem WellFormed.rewriteUp_foldStep_tree (wf : g.WellFormed) (he : e < g.size)
    (values : ∀ n, g.Reaches e n → ∃ c, g.eval n = .ok c) :
    ∃ c, g.eval e = .ok c ∧ (g.tree e).rewriteUp Tree.foldStep = .ok (.constant c) := by
  induction e using Nat.strong_induction_on with
  | _ e ih =>
    obtain ⟨c, hc⟩ := values e (.refl e)
    have below : ∀ child, child ∈ (g.expr e).children → ∃ v, g.eval child = .ok v ∧
        (g.tree child).rewriteUp Tree.foldStep = .ok (.constant v) := fun child hchild =>
      ih child (wf.child_lt hchild) (wf.child_lt_size he hchild)
        fun n hn => values n (.of_child hchild hn)
    choose! v hv hfold using below
    refine ⟨c, hc, ?_⟩
    have step : (g.tree e).rewriteUp Tree.foldStep =
        ((g.expr e).unfold g (g.width e) fun child => .constant (v child)).foldStep := by
      rw [wf.tree_eq he]
      exact Expr.rewriteUp_unfold (List.forall₂_same.2 hfold) (Expr.withChildren?_children _)
        fun _ _ => rfl
    have same : ((g.expr e).unfold g (g.width e) fun child => .constant (v child)).eval .none =
        (g.tree e).eval .none := by
      rw [wf.tree_eq he]
      refine Expr.eval_unfold_congr fun child hchild => ?_
      have lt := wf.child_lt_size he hchild
      have value : (g.tree child).eval .none = .ok (v child) := eval_eq_tree wf lt ▸ hv child hchild
      exact ⟨value.symm, (Tree.eval_fits (wf.wellSorted_tree lt) value).1⟩
    rw [eval_eq_tree wf he] at hc
    rw [step]
    cases hx : (g.expr e).isConstant with
    | false =>
      refine Tree.foldStep_of_eval ?_ ?_ (same.trans hc)
      · rw [Expr.isConstant_unfold, hx]
      · simp [Expr.parts_unfold, Tree.isConstant]
    | true =>
      cases hexpr : g.expr e with
      | constant d =>
        rw [wf.tree_of_expr_constant he hexpr] at hc
        cases hc
        rfl
      | _ => simp [hexpr, Expr.isConstant] at hx

end Graph

namespace Pass

variable {σ : Type} {callback : Callback σ} {g : Graph} {notes : σ} {e : NodeId}

/-- So far a pass has changed nothing: every node it met stands for itself. -/
structure Idle (g : Graph) (notes : σ) (s : Pass σ) : Prop where
  graph_eq : s.graph = g
  notes_eq : s.notes = notes
  same : Remembered (fun n r => r = n) s.replacements

theorem finish_idle (stays : callback e ⟨g, notes⟩ = .ok none ⟨g, notes⟩) :
    Ensures (Idle g notes) (finish callback e (g.expr e).children)
      (fun r s => r = e ∧ Idle g notes s) fun _ _ => False := by
  rintro ⟨g, replacements, notes⟩ ⟨rfl, rfl, same⟩
  change callback e ⟨g, notes⟩ = .ok none ⟨g, notes⟩ at stays
  have asked : call callback e ⟨g, replacements, notes⟩ = .ok none ⟨g, replacements, notes⟩ := by
    simp only [call, stays]
  rw [finish, bind_apply_of_ok (rebuild_self e _), bind_apply_of_ok asked]
  exact ⟨rfl, rfl, rfl, same.insert rfl⟩

theorem mapM_idle {es : List NodeId} {f : NodeId → EStateM Error (Pass σ) NodeId}
    (hf : ∀ e ∈ es,
      Ensures (Idle g notes) (f e) (fun r s => r = e ∧ Idle g notes s) fun _ _ => False) :
    Ensures (Idle g notes) (es.mapM f) (fun rs s => rs = es ∧ Idle g notes s) fun _ _ => False := by
  induction es with
  | nil => exact Ensures.pure fun _ h => ⟨rfl, h⟩
  | cons e es ih =>
    rw [List.mapM_cons]
    refine (hf e List.mem_cons_self).bind fun r => ?_
    rintro s ⟨rfl, hs⟩
    refine (ih fun e' he' => hf e' (List.mem_cons_of_mem r he')).bind (fun rs => ?_) s hs
    rintro t ⟨rfl, ht⟩
    exact ⟨rfl, ht⟩

theorem rewriteWithin_idle (wf : g.WellFormed) {depth : Nat} (hd : e < depth)
    (stays : ∀ n, g.Reaches e n → callback n ⟨g, notes⟩ = .ok none ⟨g, notes⟩) :
    Ensures (Idle g notes) (rewriteWithin callback depth e) (fun r s => r = e ∧ Idle g notes s)
      fun _ _ => False := by
  induction depth generalizing e with
  | zero => exact absurd hd (Nat.not_lt_zero e)
  | succ depth ih =>
    apply Ensures.bind_get
    intro s hs
    cases hr : s.replacements[e]? with
    | some r =>
      rintro _ rfl
      exact ⟨hs.same e r hr, hs⟩
    | none =>
      apply Ensures.bind_get_self
      rw [hs.graph_eq]
      have each : ∀ child ∈ (g.expr e).children, Ensures (Idle g notes)
          (rewriteWithin callback depth child) (fun r s => r = child ∧ Idle g notes s)
          fun _ _ => False := by
        intro child hchild
        have below := wf.child_lt hchild
        exact ih (by lia) fun n hn => stays n (.of_child hchild hn)
      refine ((mapM_idle each).start hs (fun _ _ h => h) fun _ _ h => h).bind fun ids => ?_
      rintro t ⟨rfl, ht⟩
      exact finish_idle (stays e (.refl e)) t ht

/-- A pass whose callback leaves every reachable node as it is changes nothing. -/
theorem rewrite_eq_self (wf : g.WellFormed) (he : e < g.size)
    (stays : ∀ n, g.Reaches e n → callback n ⟨g, notes⟩ = .ok none ⟨g, notes⟩) :
    ∃ replacements, rewrite callback e ⟨g, ∅, notes⟩ = .ok e ⟨g, replacements, notes⟩ := by
  have start : Idle g notes ⟨g, ∅, notes⟩ := ⟨rfl, rfl, remembered_empty⟩
  have pass : Ensures (Idle g notes) (rewriteWithin callback (UInt32.size + g.size) e)
      (fun r s => r = e ∧ Idle g notes s) fun _ _ => False :=
    rewriteWithin_idle wf (Nat.lt_add_left _ he) stays
  obtain ⟨r, ⟨_, replacements, _⟩, h, rfl, rfl, rfl, -⟩ | ⟨_, _, _, impossible⟩ :=
    pass.outcome start
  · exact ⟨replacements, h⟩
  · exact impossible.elim

end Pass

theorem foldCallback_of_folded {g : Graph} {n : NodeId} (h : g.Folded n) :
    foldCallback n ⟨g, ()⟩ = .ok none ⟨g, ()⟩ := by
  unfold foldCallback
  rw [get_bind_apply]
  dsimp only
  split
  · rfl
  split
  · rfl
  next hc hchildren =>
    obtain ⟨name, index, hv⟩ | hv :=
      h (by simpa using hc) (by simpa using hchildren)
    · rw [hv]
      rfl
    · rw [hv]
      rfl

namespace Build

variable {g h : Graph} {e r : NodeId}

/-- An expression with nothing to fold below it is folded to itself, and the graph stays as it
is. -/
theorem fold_eq_self (wf : g.WellFormed) (he : e < g.size)
    (folded : ∀ n, g.Reaches e n → g.Folded n) : fold e g = .ok e g := by
  obtain ⟨replacements, run⟩ :=
    Pass.rewrite_eq_self wf he fun n hn => foldCallback_of_folded (folded n hn)
  have first : rewriteFrom () foldCallback e g = .ok (e, ()) g := by simp only [rewriteFrom, run]
  exact bind_apply_of_ok first

theorem fold_grows (wf : g.WellFormed) (he : e < g.size) :
    Ensures (· = g) (fold e)
      (fun r h => g.Grows h ∧ r < h.size ∧ (g.tree e).rewriteUp Tree.foldStep = .ok (h.tree r))
      fun err h => g.Grows h ∧ (g.tree e).rewriteUp Tree.foldStep = .error err := by
  have replaces := (fold_replaces he).start wf.grows (fun _ _ h => h) fun _ _ h => h
  refine (replaces.and (fold_rewritesTree wf he)).weaken (fun _ h => h) ?_ fun _ _ h => ⟨h.1.1, h.2⟩
  rintro r h ⟨⟨grown, hr, -⟩, htree⟩
  exact ⟨grown, hr, htree⟩

theorem fold_of_values (wf : g.WellFormed) (he : e < g.size)
    (values : ∀ n, g.Reaches e n → ∃ c, g.eval n = .ok c) :
    ∃ c r h, g.eval e = .ok c ∧ fold e g = .ok r h ∧ h.expr r = .constant c := by
  obtain ⟨c, hc, hfolded⟩ := wf.rewriteUp_foldStep_tree he values
  obtain ⟨r, h, run, grown, hr, htree⟩ | ⟨err, h, run, -, herr⟩ := (fold_grows wf he).outcome rfl
  · have constant : h.tree r = .constant c := Except.ok.inj (htree.symm.trans hfolded)
    exact ⟨c, r, h, hc, run, grown.wellFormed.expr_of_tree_constant hr constant⟩
  · cases hfolded.symm.trans herr

/-- Folding reaches a normal form. In what it answers with, a node over constants that is none
itself has no value, because a byte is symbolic or a divisor is zero, and folding again answers with
the same node and adds nothing to the graph. If every node below the expression has a value, the
answer is a constant node with the value of the expression. -/
theorem fold_normalizes (wf : g.WellFormed) (he : e < g.size) (hf : fold e g = .ok r h) :
    (∀ n, h.Reaches r n → h.Folded n) ∧ fold r h = .ok r h ∧
    ((∀ n, g.Reaches e n → ∃ c, g.eval n = .ok c) →
      ∃ c, g.eval e = .ok c ∧ h.expr r = .constant c) := by
  obtain ⟨grown, hr, htree⟩ := (fold_grows wf he).of_ok rfl hf
  have folded : ∀ n, h.Reaches r n → h.Folded n := fun n hn =>
    grown.wellFormed.folded_of_foldStep (hn.lt_size grown.wellFormed hr)
      (Tree.foldStep_settles.step_eq_self htree (hn.contains_tree grown.wellFormed hr))
  refine ⟨folded, fold_eq_self grown.wellFormed hr folded, fun values => ?_⟩
  obtain ⟨c, r', h', hc, run, constant⟩ := fold_of_values wf he values
  cases hf.symm.trans run
  exact ⟨c, hc, constant⟩

/-- A sum is folded to its value. Beside it, under a shared node, stay a read of a symbolic byte,
over an index that is folded, and a division by zero. -/
theorem fold_sum_beside_symbolic_byte :
    let g : Graph :=
      { nodes := #[⟨.constant ⟨3, 8⟩, 8⟩, ⟨.binary .add 0 0, 8⟩, ⟨.read 0 1, 8⟩,
          ⟨.constant ⟨0, 8⟩, 8⟩, ⟨.binary .udiv 1 3, 8⟩, ⟨.binary .xor 2 4, 8⟩,
          ⟨.binary .add 5 5, 8⟩]
        roots := #[.symbolic "packet" 8] }
    g.WellFormed ∧ 6 < g.size ∧
      (∃ h, fold 6 g = .ok 11 h ∧ (∀ n, h.Reaches 11 n → h.Folded n) ∧ fold 11 h = .ok 11 h) ∧
      ∃ h, fold 1 g = .ok 7 h ∧ fold 7 h = .ok 7 h ∧ h.expr 7 = .constant ⟨6, 8⟩ := by
  intro g
  have wf : g.WellFormed := by decide +kernel
  have lt : 6 < g.size := by decide
  have whole : answer? (fold 6 g) = some 11 := by decide +kernel
  have sum : answer? (fold 1 g) = some 7 := by decide +kernel
  obtain ⟨h, run⟩ := eq_ok_of_answer? whole
  obtain ⟨k, runSum⟩ := eq_ok_of_answer? sum
  obtain ⟨folded, again, -⟩ := fold_normalizes wf lt run
  obtain ⟨-, againSum, constant⟩ := fold_normalizes wf (by decide) runSum
  have values : ∀ n, g.Reaches 1 n → ∃ c, g.eval n = .ok c := fun n hn => by
    have le := hn.le wf
    obtain rfl | rfl : n = 0 ∨ n = 1 := by lia
    · exact ⟨⟨3, 8⟩, by decide +kernel⟩
    · exact ⟨⟨6, 8⟩, by decide +kernel⟩
  obtain ⟨c, hc, hk⟩ := constant values
  have hv : g.eval 1 = .ok ⟨6, 8⟩ := by decide +kernel
  cases hc.symm.trans hv
  exact ⟨wf, lt, ⟨h, run, folded, again⟩, k, runSum, againSum, hk⟩

end Build

end BitvectorCode
