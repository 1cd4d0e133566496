import BitvectorCode.Proofs.Rewrite.Passes
import BitvectorCode.Proofs.Rewrite.Trees

/-!
# What folding keeps

Folding rewrites a tree from its leaves up, and every step puts something in place that has the same
width and the same outcome whatever the symbolic bytes are. A step may be taken in a branch that an
evaluation never enters, so what fails there is left alone, and only a signed operation that is too
wide makes the whole pass fail.
-/

namespace BitvectorCode

open BitvectorCode.Graph

namespace Tree

def parts : Tree → List Tree
  | constant _ => []
  | read _ inner | extract inner _ _ | zeroExtend inner _ | signExtend inner _ | not inner =>
    [inner]
  | concat lhs rhs | binary _ lhs rhs | compare _ lhs rhs => [lhs, rhs]
  | select cond ifTrue ifFalse => [cond, ifTrue, ifFalse]

def isConstant : Tree → Bool
  | constant _ => true
  | _ => false

/-- A node over constants becomes its value; without one it stays as it is, unless it is too wide to
be evaluated at all. -/
def foldStep (t : Tree) : Except Error Tree :=
  if t.isConstant then .ok t
  else if !t.parts.all isConstant then .ok t
  else
    match t.eval .none with
    | .ok c => .ok (.constant c)
    | .error (.symbolicRead ..) | .error .divisionByZero => .ok t
    | .error err => .error err

/-- In the place of `s`, the tree `t` makes no difference: it obeys the sort rules, is as wide, and
has the same outcome whatever the symbolic bytes are. -/
structure Matches (s t : Tree) : Prop where
  wellSorted : t.WellSorted
  width_eq : t.width = s.width
  eval_eq : ∀ bytes, t.eval bytes = s.eval bytes

variable {s s' t t' u : Tree}

namespace Matches

theorem refl (h : t.WellSorted) : Matches t t := ⟨h, rfl, fun _ => rfl⟩

theorem trans (st : Matches s t) (tu : Matches t u) : Matches s u :=
  ⟨tu.wellSorted, tu.width_eq.trans st.width_eq, fun bytes =>
    (tu.eval_eq bytes).trans (st.eval_eq bytes)⟩

theorem read (h : Matches s t) (root : Root) : Matches (read root s) (read root t) :=
  ⟨h.wellSorted, rfl, fun bytes => by simp only [eval, h.eval_eq]⟩

theorem concat (h : Matches s t) (h' : Matches s' t') : Matches (concat s s') (concat t t') :=
  ⟨⟨h.wellSorted, h'.wellSorted⟩, by simp only [width, h.width_eq, h'.width_eq],
    fun bytes => by simp only [eval, h.eval_eq, h'.eval_eq]⟩

theorem extract {offset width : Nat} (h : Matches s t) (hs : (extract s offset width).WellSorted) :
    Matches (extract s offset width) (extract t offset width) :=
  ⟨⟨h.wellSorted, h.width_eq ▸ hs.2.1, hs.2.2⟩, rfl, fun bytes => by simp only [eval, h.eval_eq]⟩

theorem zeroExtend {width : Nat} (h : Matches s t) (hs : (zeroExtend s width).WellSorted) :
    Matches (zeroExtend s width) (zeroExtend t width) :=
  ⟨⟨h.wellSorted, h.width_eq ▸ hs.2⟩, rfl, fun bytes => by simp only [eval, h.eval_eq]⟩

theorem signExtend {width : Nat} (h : Matches s t) (hs : (signExtend s width).WellSorted) :
    Matches (signExtend s width) (signExtend t width) :=
  ⟨⟨h.wellSorted, h.width_eq ▸ hs.2⟩, rfl, fun bytes => by simp only [eval, h.eval_eq]⟩

theorem not (h : Matches s t) : Matches (not s) (not t) :=
  ⟨h.wellSorted, h.width_eq, fun bytes => by simp only [eval, h.eval_eq, h.width_eq]⟩

theorem binary {op : BinaryOp} (h : Matches s t) (h' : Matches s' t')
    (hs : (binary op s s').WellSorted) :
    Matches (binary op s s') (binary op t t') :=
  ⟨⟨h.wellSorted, h'.wellSorted, by rw [h.width_eq, h'.width_eq, hs.2.2]⟩, h.width_eq,
    fun bytes => by simp only [eval, h.eval_eq, h'.eval_eq, h.width_eq]⟩

theorem compare {op : CompareOp} (h : Matches s t) (h' : Matches s' t')
    (hs : (compare op s s').WellSorted) : Matches (compare op s s') (compare op t t') :=
  ⟨⟨h.wellSorted, h'.wellSorted, by rw [h.width_eq, h'.width_eq, hs.2.2]⟩, rfl,
    fun bytes => by simp only [eval, h.eval_eq, h'.eval_eq]⟩

theorem select {cond cond' : Tree} (hc : Matches cond cond') (h : Matches s t) (h' : Matches s' t')
    (hs : (select cond s s').WellSorted) : Matches (select cond s s') (select cond' t t') := by
  obtain ⟨-, -, -, hw, hst⟩ := hs
  exact ⟨⟨hc.wellSorted, h.wellSorted, h'.wellSorted, hc.width_eq.trans hw,
    by rw [h.width_eq, h'.width_eq, hst]⟩, h.width_eq,
    fun bytes => by simp only [eval, hc.eval_eq, h.eval_eq, h'.eval_eq]⟩

end Matches

theorem matches_of_rewriteUp {step : Tree → Except Error Tree}
    (hstep : ∀ {s t : Tree}, s.WellSorted → step s = .ok t → Matches s t) (h : s.WellSorted)
    (hr : s.rewriteUp step = .ok t) : Matches s t := by
  have last : ∀ {s rebuilt t : Tree}, Matches s rebuilt → step rebuilt = .ok t → Matches s t :=
    fun hs ht => hs.trans (hstep hs.wellSorted ht)
  induction s generalizing t with
  | constant c => exact hstep h hr
  | read root index ih =>
    obtain ⟨i, hi, hr⟩ := bind_eq_ok_iff.1 hr
    exact last ((ih h hi).read root) hr
  | concat high low ihh ihl =>
    obtain ⟨l, hl, hr⟩ := bind_eq_ok_iff.1 hr
    obtain ⟨r, hr', hr⟩ := bind_eq_ok_iff.1 hr
    exact last ((ihh h.1 hl).concat (ihl h.2 hr')) hr
  | extract inner offset width ih =>
    obtain ⟨i, hi, hr⟩ := bind_eq_ok_iff.1 hr
    exact last ((ih h.1 hi).extract h) hr
  | zeroExtend inner width ih =>
    obtain ⟨i, hi, hr⟩ := bind_eq_ok_iff.1 hr
    exact last ((ih h.1 hi).zeroExtend h) hr
  | signExtend inner width ih =>
    obtain ⟨i, hi, hr⟩ := bind_eq_ok_iff.1 hr
    exact last ((ih h.1 hi).signExtend h) hr
  | not inner ih =>
    obtain ⟨i, hi, hr⟩ := bind_eq_ok_iff.1 hr
    exact last (ih h hi).not hr
  | binary op lhs rhs ihl ihr =>
    obtain ⟨l, hl, hr⟩ := bind_eq_ok_iff.1 hr
    obtain ⟨r, hr', hr⟩ := bind_eq_ok_iff.1 hr
    exact last ((ihl h.1 hl).binary (ihr h.2.1 hr') h) hr
  | compare op lhs rhs ihl ihr =>
    obtain ⟨l, hl, hr⟩ := bind_eq_ok_iff.1 hr
    obtain ⟨r, hr', hr⟩ := bind_eq_ok_iff.1 hr
    exact last ((ihl h.1 hl).compare (ihr h.2.1 hr') h) hr
  | select cond ifTrue ifFalse ihc iht ihf =>
    obtain ⟨c, hc, hr⟩ := bind_eq_ok_iff.1 hr
    obtain ⟨l, hl, hr⟩ := bind_eq_ok_iff.1 hr
    obtain ⟨r, hr', hr⟩ := bind_eq_ok_iff.1 hr
    exact last ((ihc h.1 hc).select (iht h.2.1 hl) (ihf h.2.2.1 hr') h) hr

theorem foldStep_matches (h : s.WellSorted) (hf : s.foldStep = .ok t) : Matches s t := by
  unfold foldStep at hf
  split at hf
  · cases hf
    exact .refl h
  split at hf
  · cases hf
    exact .refl h
  split at hf
  · next c hc =>
    cases hf
    obtain ⟨hbits, hvalid⟩ := eval_fits h hc
    exact ⟨hvalid, hbits, fun bytes => (eval_of_none bytes hc).symm⟩
  · cases hf
    exact .refl h
  · cases hf
    exact .refl h
  · cases hf

end Tree

theorem Expr.isConstant_unfold {g : Graph} {width : Nat} {tree : NodeId → Tree} (x : Expr) :
    (x.unfold g width tree).isConstant = x.isConstant := by
  cases x <;> rfl

theorem Expr.parts_unfold {g : Graph} {width : Nat} {tree : NodeId → Tree} (x : Expr) :
    (x.unfold g width tree).parts = x.children.map tree := by
  cases x <;> rfl

namespace Graph.WellFormed

variable {g : Graph} {e : NodeId}

theorem isConstant_tree (wf : g.WellFormed) (he : e < g.size) :
    (g.tree e).isConstant = (g.expr e).isConstant := by
  rw [wf.tree_eq he, Expr.isConstant_unfold]

theorem all_isConstant_parts_tree (wf : g.WellFormed) (he : e < g.size) :
    (g.tree e).parts.all Tree.isConstant =
      (g.expr e).children.all fun child => (g.expr child).isConstant := by
  rw [wf.tree_eq he, Expr.parts_unfold, List.all_map, Bool.eq_iff_iff, List.all_eq_true,
    List.all_eq_true]
  refine forall₂_congr fun child hc => ?_
  rw [Function.comp_apply, wf.isConstant_tree (wf.child_lt_size he hc)]

end Graph.WellFormed

theorem foldCallback_steps : foldCallback.Steps (fun _ _ => True) Tree.foldStep := by
  intro g notes e wf _ he
  apply Ensures.bind_get_self
  have value : g.eval e = (g.tree e).eval .none := eval_eq_tree wf he
  have stays : Ensures (· = (⟨g, notes⟩ : CallbackState Unit)) (pure none)
      (fun new s => .ok (g.tree e) = (.ok (s.graph.tree (new.getD e)) : Except Error Tree))
      fun err _ => .ok (g.tree e) = (.error err : Except Error Tree) :=
    .pure fun _ h => by rw [h, Option.getD_none]
  unfold Tree.foldStep
  rw [wf.isConstant_tree he, wf.all_isConstant_parts_tree he, ← value]
  dsimp only
  split
  · exact stays
  split
  · exact stays
  cases hv : g.eval e with
  | ok c =>
    have sorted := wf.wellSorted_tree he
    have hvalid := (Tree.eval_fits sorted (value ▸ hv)).2
    apply (CallbackState.build_constant_ensures notes wf hvalid).sure.bind
    rintro r t ⟨grown, -, hlt, hn⟩
    change Except.ok (Tree.constant c) = .ok (t.graph.tree r)
    rw [grown.wellFormed.tree_of_node hlt hn]
    rfl
  | error err =>
    cases err with
    | symbolicRead | divisionByZero => exact stays
    | _ => exact .throw fun _ _ => rfl

namespace Build

variable {g : Graph} {e : NodeId}

/-- Folding rewrites the tree of its expression. -/
theorem fold_rewritesTree (wf : g.WellFormed) (he : e < g.size) :
    Ensures (· = g) (fold e) (fun r h => (g.tree e).rewriteUp Tree.foldStep = .ok (h.tree r))
      fun err _ => (g.tree e).rewriteUp Tree.foldStep = .error err := by
  have pass := Pass.rewrite_rewritesTrees wf foldCallback_sound foldCallback_steps () trivial he
  have first : Ensures (· = g) (rewriteFrom () foldCallback e)
      (fun r h => (g.tree e).rewriteUp Tree.foldStep = .ok (h.tree r.1))
      fun err _ => (g.tree e).rewriteUp Tree.foldStep = .error err := by
    rintro _ rfl
    obtain ⟨r, s, h, tree⟩ | ⟨err, s, h, tree⟩ := pass.outcome rfl
    · simp only [rewriteFrom, h]
      exact tree
    · simp only [rewriteFrom, h]
      exact tree
  exact first.bind fun r => .pure fun _ h => h

/-- What folding answers with stands for the expression: it is as wide and has the same value or the
same failure, whatever the symbolic bytes are. Its tree is that of the expression with every step of
folding taken, in whatever way nodes are shared. Folding fails only at a signed operation that is
too wide. -/
theorem fold_keeps_outcomes (wf : g.WellFormed) (he : e < g.size) :
    Ensures (· = g) (fold e)
      (fun r h => g.Grows h ∧ r < h.size ∧ h.width r = g.width e ∧ h.eval r = g.eval e ∧
        (∀ bytes, (h.tree r).eval bytes = (g.tree e).eval bytes) ∧
        (g.tree e).rewriteUp Tree.foldStep = .ok (h.tree r))
      fun err _ => (∃ width, err = .tooWide width) ∧
        (g.tree e).rewriteUp Tree.foldStep = .error err := by
  have replaces := (fold_replaces he).start wf.grows (fun _ _ h => h) fun _ _ h => h.2
  refine (replaces.and (fold_rewritesTree wf he)).weaken (fun _ h => h) ?_ fun _ _ h => h
  rintro r h ⟨⟨grown, hr, hw⟩, htree⟩
  rw [id_eq] at grown hr hw
  have same := Tree.matches_of_rewriteUp Tree.foldStep_matches (wf.wellSorted_tree he) htree
  have value : h.eval r = g.eval e := by
    rw [eval_eq_tree grown.wellFormed hr, eval_eq_tree wf he, same.eval_eq]
  exact ⟨grown, hr, hw, value, same.eval_eq, htree⟩

/-- A sum in one branch of a selection is folded, a division by zero in the other is not, and the
value is that of the sum either way. -/
theorem fold_beside_division_by_zero :
    let g : Graph := { nodes := #[⟨.constant ⟨0, 8⟩, 8⟩, ⟨.constant ⟨5, 8⟩, 8⟩,
      ⟨.constant ⟨1, 1⟩, 1⟩, ⟨.binary .add 1 1, 8⟩, ⟨.binary .udiv 1 0, 8⟩, ⟨.select 2 3 4, 8⟩] }
    g.WellFormed ∧ 5 < g.size ∧ g.eval 5 = .ok ⟨10, 8⟩ ∧ ∃ r h, fold 5 g = .ok r h ∧ r ≠ 5 ∧
      h.width r = 8 ∧ h.eval r = .ok ⟨10, 8⟩ ∧
      ∀ bytes, (h.tree r).eval bytes = (g.tree 5).eval bytes := by
  intro g
  have wf : g.WellFormed := by decide +kernel
  have he : 5 < g.size := by decide
  have hg : g.eval 5 = .ok ⟨10, 8⟩ := by decide +kernel
  have answer : answer? (fold 5 g) = some 7 := by decide +kernel
  obtain ⟨h, hfold⟩ := eq_ok_of_answer? answer
  obtain ⟨-, -, hw, value, same, -⟩ := (fold_keeps_outcomes wf he).of_ok rfl hfold
  exact ⟨wf, he, hg, 7, h, hfold, by decide, hw, value.trans hg, same⟩

end Build

end BitvectorCode
