import BitvectorCode.Proofs.Analysis.Symbols
import BitvectorCode.Proofs.Eval.Evaluation

/-!
# What an outcome depends on

The outcome of an expression depends on the bytes of the roots that it reads, wherever it reads
them, and on no others. These are the roots that its symbols name. So bytes and contents of other
roots can be changed at will: the value stays the same, and so does the failure, if there is one.
-/

namespace BitvectorCode

theorem Tree.eval_eq_of_agree {t : Tree} {bytes bytes' : Bytes}
    (agree : ∀ root, t.AnyRead (fun other _ => other = root) → bytes root = bytes' root) :
    t.eval bytes = t.eval bytes' := by
  induction t with
  | constant c => rfl
  | read root index ih =>
    have hindex := ih fun other h => agree other (.inr h)
    have hroot : bytes root = bytes' root := agree root (.inl rfl)
    simp only [eval, hindex, Bytes.at?, hroot]
  | extract inner _ _ ih | zeroExtend inner _ ih | signExtend inner _ ih | not inner ih =>
    simp only [eval, ih agree]
  | concat l r ihl ihr | binary _ l r ihl ihr | compare _ l r ihl ihr =>
    have hl := ihl fun root h => agree root (.inl h)
    have hr := ihr fun root h => agree root (.inr h)
    simp only [eval, hl, hr]
  | select cond ifTrue ifFalse ihc iht ihf =>
    have hcond := ihc fun root h => agree root (.inl h)
    have htrue := iht fun root h => agree root (.inr (.inl h))
    have hfalse := ihf fun root h => agree root (.inr (.inr h))
    simp only [eval, hcond, htrue, hfalse]

namespace Graph

variable {g : Graph} {e : NodeId} {roots : Array Root}

theorem WellFormed.withRoots (wf : g.WellFormed) (hsize : roots.size = g.roots.size) :
    { g with roots }.WellFormed := by
  intro e node hn
  obtain ⟨children, old, sort, valid⟩ := wf e node hn
  exact ⟨children, fun r hr => hsize ▸ old r hr, sort, valid⟩

theorem WellFormed.tree_withRoots (wf : g.WellFormed) (hsize : roots.size = g.roots.size)
    (he : e < g.size)
    (agree : ∀ n, g.Reaches e n → ∀ r ∈ (g.expr n).roots, { g with roots }.root r = g.root r) :
    { g with roots }.tree e = g.tree e := by
  induction e using Nat.strong_induction_on with
  | _ e ih =>
    rw [wf.tree_eq he, (wf.withRoots hsize).tree_eq he]
    exact Expr.unfold_congr (agree e (.refl e)) fun child hc =>
      ih child (wf.child_lt hc) (wf.child_lt_size he hc) fun n hn => agree n (.of_child hc hn)

/-- The symbols of an expression cover everything that its outcome depends on. Two choices of
symbolic bytes that agree on the roots of these names give it one outcome, a value or a failure. So
do two graphs of the same nodes whose roots of these names are the same, whatever the others are and
hold. -/
theorem WellFormed.symbols_cover (wf : g.WellFormed) (he : e < g.size) :
    (∀ bytes bytes' : Bytes, (∀ root, root.name ∈ g.symbols e → bytes root = bytes' root) →
      (g.tree e).eval bytes = (g.tree e).eval bytes') ∧
    ∀ roots : Array Root, roots.size = g.roots.size →
      (∀ r : RootId, (g.root r).name ∈ g.symbols e → { g with roots }.root r = g.root r) →
      { g with roots }.eval e = g.eval e := by
  constructor
  · intro bytes bytes' agree
    refine Tree.eval_eq_of_agree fun root hread => agree root ((wf.mem_symbols_iff he).2 ?_)
    rw [wf.anyRead_tree_iff he] at hread ⊢
    obtain ⟨n, hn, r, index, hx, rfl⟩ := hread
    exact ⟨n, hn, r, index, hx, rfl⟩
  · intro roots hsize agree
    have htree : { g with roots }.tree e = g.tree e := by
      refine wf.tree_withRoots hsize he fun n hn r hr => agree r ?_
      obtain ⟨index, hx⟩ := Expr.eq_read_of_mem_roots hr
      exact (wf.mem_symbols_iff he).2 ((wf.anyRead_tree_iff he).2 ⟨n, hn, r, index, hx, rfl⟩)
    rw [eval_eq_tree wf he, eval_eq_tree (wf.withRoots hsize) he, htree]

/-- A byte of a table, found by a byte of a packet, does not depend on a device. -/
theorem symbols_cover_of_indirect_read :
    let g : Graph :=
      { nodes := #[⟨.constant ⟨0, 32⟩, 32⟩, ⟨.read 0 0, 8⟩, ⟨.read 1 1, 8⟩, ⟨.read 2 0, 8⟩],
        roots := #[.symbolic "packet" 16, .known "table" [7, 9], .symbolic "device" 1] }
    let roots : Array Root := #[.symbolic "packet" 16, .known "table" [7, 9], .known "other" [5]]
    let bytes : Bytes := fun root i => if root.name = "packet" ∧ i = 0 then some 1 else none
    let bytes' : Bytes := fun root i => if root.name = "device" then some 7 else bytes root i
    g.WellFormed ∧ 2 < g.size ∧ (g.symbols 2).toList = ["packet", "table"] ∧
      (∀ root, root.name ∈ g.symbols 2 → bytes root = bytes' root) ∧
      (g.tree 2).eval bytes = .ok ⟨9, 8⟩ ∧ (g.tree 2).eval bytes' = .ok ⟨9, 8⟩ ∧
      { g with roots }.eval 2 = g.eval 2 := by
  intro g roots bytes bytes'
  have wf : g.WellFormed := by decide +kernel
  have he : 2 < g.size := by decide
  have names : (g.symbols 2).toList = ["packet", "table"] := by decide +kernel
  have hname : ∀ name, name ∈ g.symbols 2 → name = "packet" ∨ name = "table" := by
    intro name h
    rw [← Std.TreeSet.mem_toList, names] at h
    simpa using h
  have agree : ∀ root, root.name ∈ g.symbols 2 → bytes root = bytes' root := by
    intro root h
    have hdevice : root.name ≠ "device" := by
      rcases hname _ h with h | h <;> simp [h]
    funext i
    exact (if_neg hdevice).symm
  have changed : ∀ r : RootId, (g.root r).name ∈ g.symbols 2 →
      { g with roots }.root r = g.root r := by
    intro r h
    have hdevice : r ≠ 2 := by
      rintro rfl
      rcases hname _ h with h | h <;> exact absurd h (by decide)
    clear h
    match r, hdevice with
    | 0, _ | 1, _ | _ + 3, _ => rfl
  have value : (g.tree 2).eval bytes = .ok ⟨9, 8⟩ := by decide +kernel
  obtain ⟨hbytes, hroots⟩ := wf.symbols_cover he
  exact ⟨wf, he, names, agree, value, (hbytes _ _ agree).symm.trans value, hroots roots rfl changed⟩

end Graph

end BitvectorCode
