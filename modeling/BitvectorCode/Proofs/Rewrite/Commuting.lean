import BitvectorCode.Proofs.Graph.Structure
import BitvectorCode.Proofs.Rewrite.NormalForm
import BitvectorCode.Proofs.Rewrite.Rename

/-!
# Folding and renaming commute

Folding looks at the contents of a root and never at its name, and renaming keeps the contents. So
the step of folding does at a node over other roots what it does at the node itself, and replacing
the roots of a tree before it is rewritten or after makes no difference. What a chain of passes
makes of a tree, or where it fails, is then the same in both orders.
-/

namespace BitvectorCode

open BitvectorCode.Graph

theorem Root.byte?_translated (translations : Translations) (root : Root) (i : Nat) :
    (root.translated translations).byte? i = root.byte? i := by
  unfold translated
  split <;> rfl

theorem bind_map_comm {ε α β γ δ : Type} {x : Except ε α} {x' : Except ε β} {m : α → β} {m' : γ → δ}
    {k : α → Except ε γ} {k' : β → Except ε δ} (hx : x' = x.map m)
    (h : ∀ a, k' (m a) = (k a).map m') :
    (x' >>= k') = (x >>= k).map m' := by
  cases x with
  | error err => exact hx ▸ rfl
  | ok a => exact hx ▸ h a

namespace Tree

variable {f : Root → Root} {step : Tree → Except Error Tree} {t : Tree}

@[simp]
theorem isConstant_mapRoots : (t.mapRoots f).isConstant = t.isConstant := by
  cases t <;> rfl

@[simp]
theorem parts_mapRoots : (t.mapRoots f).parts = t.parts.map (mapRoots f) := by
  cases t <;> rfl

theorem mapRoots_of_isConstant (h : t.isConstant = true) : t.mapRoots f = t := by
  cases t with
  | constant c => rfl
  | _ => cases h

theorem isConstant_of_parts_eq_nil (h : t.parts = []) : t.isConstant = true := by
  cases t with
  | constant c => rfl
  | _ => cases h

theorem mapRoots_over_constants (h : t.parts.all isConstant = true) :
    (∃ root c, t = read root (constant c)) ∨ t.mapRoots f = t := by
  have part : ∀ p ∈ t.parts, p.mapRoots f = p := fun p hp =>
    mapRoots_of_isConstant (List.all_eq_true.1 h p hp)
  cases t with
  | read root index =>
    cases index with
    | constant c => exact .inl ⟨root, c, rfl⟩
    | _ => simp [parts, isConstant] at h
  | constant c => exact .inr rfl
  | extract inner offset width | zeroExtend inner width | signExtend inner width | not inner
  | concat lhs rhs | binary op lhs rhs | compare op lhs rhs | select cond ifTrue ifFalse =>
    simp_all [parts, mapRoots, mapReads]

theorem foldStep_read_constant (root : Root) (c : Constant) : (read root (constant c)).foldStep =
    .ok ((Bytes.none.at? root c).elim (read root (constant c)) fun byte =>
      constant (.ofNat byte.toNat 8)) := by
  simp only [foldStep, isConstant, parts, List.all_cons, List.all_nil, eval, bind, Except.bind]
  cases Bytes.none.at? root c <;> rfl

theorem foldStep_mapRoots (hf : ∀ root i, (f root).byte? i = root.byte? i) (t : Tree) :
    (t.mapRoots f).foldStep = t.foldStep.map (mapRoots f) := by
  by_cases hp : t.parts.all isConstant = true
  · obtain ⟨root, c, rfl⟩ | same := mapRoots_over_constants (f := f) hp
    · have byte : Bytes.none.at? (f root) c = Bytes.none.at? root c := by
        simp only [Bytes.at?, Bytes.none, hf]
      change (read (f root) (constant c)).foldStep = _
      rw [foldStep_read_constant, foldStep_read_constant, byte]
      cases Bytes.none.at? root c <;> rfl
    · rw [same]
      cases h : t.foldStep with
      | error err => rfl
      | ok t' =>
        obtain rfl | ⟨leaf, -⟩ := foldStep_settles t t' h
        · exact congrArg Except.ok same.symm
        · exact congrArg Except.ok (mapRoots_of_isConstant (isConstant_of_parts_eq_nil leaf)).symm
  · have parts : (t.mapRoots f).parts.all isConstant = t.parts.all isConstant := by
      simp only [parts_mapRoots, List.all_map, Function.comp_def, isConstant_mapRoots]
    have stays : ∀ s : Tree, s.parts.all isConstant = false → s.foldStep = .ok s := fun s hs => by
      simp [foldStep, hs]
    rw [stays t (Bool.eq_false_iff.2 hp), stays _ (parts.trans (Bool.eq_false_iff.2 hp))]
    rfl

/-- If a step does at every node over other roots what it does at the node itself, a tree is
rewritten to the same, or fails the same, with its roots replaced before or after. -/
theorem rewriteUp_mapRoots (hs : ∀ t, step (t.mapRoots f) = (step t).map (mapRoots f)) (t : Tree) :
    (t.mapRoots f).rewriteUp step = (t.rewriteUp step).map (mapRoots f) := by
  induction t with
  | constant c => exact hs (constant c)
  | read root index ih => exact bind_map_comm ih fun i => hs (read root i)
  | extract inner offset width ih => exact bind_map_comm ih fun i => hs (extract i offset width)
  | zeroExtend inner width ih => exact bind_map_comm ih fun i => hs (zeroExtend i width)
  | signExtend inner width ih => exact bind_map_comm ih fun i => hs (signExtend i width)
  | not inner ih => exact bind_map_comm ih fun i => hs (not i)
  | concat high low ihh ihl =>
    exact bind_map_comm ihh fun l => bind_map_comm ihl fun r => hs (concat l r)
  | binary op lhs rhs ihl ihr =>
    exact bind_map_comm ihl fun l => bind_map_comm ihr fun r => hs (binary op l r)
  | compare op lhs rhs ihl ihr =>
    exact bind_map_comm ihl fun l => bind_map_comm ihr fun r => hs (compare op l r)
  | select cond ifTrue ifFalse ihc iht ihf =>
    exact bind_map_comm ihc fun c => bind_map_comm iht fun l => bind_map_comm ihf fun r =>
      hs (select c l r)

end Tree

namespace Build

variable {g : Graph} {e : NodeId} {x y : Build NodeId} {outcome : Except Error Tree}

/-- In every graph that `g` grows into, the computation answers with the tree `outcome`, or fails
with that error. -/
def Makes (g : Graph) (x : Build NodeId) (outcome : Except Error Tree) : Prop :=
  ∀ h, g.Grows h → Ensures (· = h) x (fun r k => h.Grows k ∧ r < k.size ∧ outcome = .ok (k.tree r))
    fun err k => h.Grows k ∧ outcome = .error err

theorem Makes.bind {f : NodeId → Build NodeId} {next : Tree → Except Error Tree}
    (hx : Makes g x outcome)
    (hf : ∀ h r, h.WellFormed → r < h.size → Makes h (f r) (next (h.tree r))) :
    Makes g (x >>= f) (outcome >>= next) := by
  intro h grown
  have first : Ensures (· = h) x (fun r k => h.Grows k ∧ r < k.size ∧ outcome = .ok (k.tree r))
      fun err k => h.Grows k ∧ (outcome >>= next) = .error err :=
    (hx h grown).weaken_fail fun err k hk => ⟨hk.1, bind_eq_error_iff.2 (.inl hk.2)⟩
  refine first.bind fun r => ?_
  rintro k ⟨more, hr, rfl⟩
  have wf := more.wellFormed
  exact ((hf k r wf hr k wf.grows).weaken (fun _ h => h)
    (fun s k' hs => ⟨more.trans hs.1, hs.2⟩) fun err k' herr => ⟨more.trans herr.1, herr.2⟩) k rfl

theorem fold_makes (wf : g.WellFormed) (he : e < g.size) :
    Makes g (fold e) ((g.tree e).rewriteUp Tree.foldStep) := by
  intro h grown
  rw [← grown.tree_eq wf he]
  exact fold_grows grown.wellFormed (grown.lt_size he)

theorem rename_makes (translations : Translations) (wf : g.WellFormed) (he : e < g.size) :
    Makes g (rename translations e) (.ok ((g.tree e).mapRoots (Root.translated translations))) := by
  rintro h grown _ rfl
  obtain ⟨r, k, run, more, hr, tree⟩ := rename_tree translations grown.wellFormed (grown.lt_size he)
  rw [← grown.tree_eq wf he, run]
  exact ⟨more, hr, congrArg Except.ok tree.symm⟩

/-- Run one after the other in one graph, the computations answer with nodes of one structure or
fail with the same error. -/
def Agree (g : Graph) (x y : Build NodeId) : Prop :=
  match x g with
  | .ok r h => ∃ s k, y h = .ok s k ∧ k.sameStructure r s = true
  | .error err h => ∃ k, y h = .error err k

theorem Makes.agree (hx : Makes g x outcome) (hy : Makes g y outcome) (wf : g.WellFormed) :
    Agree g x y := by
  obtain ⟨r, h, run, grown, hr, rfl⟩ | ⟨err, h, run, grown, rfl⟩ := (hx g wf.grows).outcome rfl
  · obtain ⟨s, k, run', more, hs, tree⟩ | ⟨_, _, _, _, impossible⟩ := (hy h grown).outcome rfl
    · have same : k.sameStructure r s = true := by
        rw [more.wellFormed.sameStructure_iff (more.lt_size hr) hs,
          more.tree_eq grown.wellFormed hr]
        exact Except.ok.inj tree
      simp only [Agree, run]
      exact ⟨s, k, run', same⟩
    · cases impossible
  · obtain ⟨_, _, _, _, _, impossible⟩ | ⟨err', k, run', more, herr⟩ := (hy h grown).outcome rfl
    · cases impossible
    · cases herr
      simp only [Agree, run]
      exact ⟨k, run'⟩

/-- Folding what is renamed and renaming what is folded make the same of the tree: the folded tree
with its roots replaced, or the error of folding. Run one after the other in one graph, in either
order, they answer with nodes of one structure or fail both, with the same error. -/
theorem fold_rename_comm (translations : Translations) (wf : g.WellFormed) (he : e < g.size) :
    let renamedFirst : Build NodeId := rename translations e >>= fold
    let foldedFirst : Build NodeId := fold e >>= rename translations
    let folded :=
      ((g.tree e).rewriteUp Tree.foldStep).map (Tree.mapRoots (Root.translated translations))
    Makes g renamedFirst folded ∧ Makes g foldedFirst folded ∧
      Agree g renamedFirst foldedFirst ∧ Agree g foldedFirst renamedFirst := by
  intro renamedFirst foldedFirst folded
  have renamed : Makes g renamedFirst folded := by
    have step := Tree.foldStep_mapRoots (Root.byte?_translated translations)
    change Makes g renamedFirst (((g.tree e).rewriteUp Tree.foldStep).map _)
    rw [← Tree.rewriteUp_mapRoots step]
    exact (rename_makes translations wf he).bind fun h r wh hr => fold_makes wh hr
  have foldedThen : Makes g foldedFirst folded := by
    have chain : Makes g foldedFirst (((g.tree e).rewriteUp Tree.foldStep) >>= fun t =>
        .ok (t.mapRoots (Root.translated translations))) :=
      (fold_makes wf he).bind fun h r wh hr => rename_makes translations wh hr
    exact chain
  exact ⟨renamed, foldedThen, renamed.agree foldedThen wf, foldedThen.agree renamed wf⟩

end Build

/-- A packet is read at a byte of a table, and both get new names. The table is folded away in
either order, also where the packet has its name by then, and the packet is read at a constant.
Beside a division that is too wide both orders fail. -/
theorem fold_rename_comm_of_table :
    let g : Graph := {
      nodes := #[⟨.constant ⟨1, 8⟩, 8⟩, ⟨.read 0 0, 8⟩, ⟨.read 1 1, 8⟩, ⟨.binary .add 1 1, 8⟩,
        ⟨.concat 2 3, 16⟩, ⟨.constant ⟨1, 65⟩, 65⟩, ⟨.binary .sdiv 5 5, 65⟩, ⟨.concat 2 6, 73⟩]
      roots := #[.known "table" [7, 9], .symbolic "packet" 64] }
    let translations : Translations := .ofList [("packet", "table"), ("table", "lookup")]
    g.WellFormed ∧ 4 < g.size ∧ 7 < g.size ∧
      (∃ r h s k, (Build.rename translations 4 >>= Build.fold) g = .ok r h ∧
        (Build.fold 4 >>= Build.rename translations) h = .ok s k ∧ k.sameStructure r s = true ∧
        h.tree r = .concat (.read (.symbolic "table" 64) (.constant ⟨9, 8⟩)) (.constant ⟨18, 8⟩)) ∧
      ∃ h k, (Build.rename translations 7 >>= Build.fold) g = .error (.tooWide 65) h ∧
        (Build.fold 7 >>= Build.rename translations) h = .error (.tooWide 65) k := by
  intro g translations
  have wf : g.WellFormed := by decide +kernel
  have he : 4 < g.size := by decide
  have he' : 7 < g.size := by decide
  have tree :
      ((g.tree 4).rewriteUp Tree.foldStep).map (Tree.mapRoots (Root.translated translations)) =
      .ok (.concat (.read (.symbolic "table" 64) (.constant ⟨9, 8⟩)) (.constant ⟨18, 8⟩)) := by
    decide +kernel
  have wide :
      ((g.tree 7).rewriteUp Tree.foldStep).map (Tree.mapRoots (Root.translated translations)) =
      .error (.tooWide 65) := by decide +kernel
  obtain ⟨makes, -, agree, -⟩ := Build.fold_rename_comm translations wf he
  obtain ⟨makes', -, agree', -⟩ := Build.fold_rename_comm translations wf he'
  rw [tree] at makes
  rw [wide] at makes'
  obtain ⟨r, h, run, -, -, folded⟩ | ⟨_, _, _, _, impossible⟩ := (makes g wf.grows).outcome rfl
  · obtain ⟨_, _, _, _, _, impossible⟩ | ⟨err, h', run', -, herr⟩ := (makes' g wf.grows).outcome rfl
    · cases impossible
    · cases herr
      simp only [Build.Agree, run] at agree
      simp only [Build.Agree, run'] at agree'
      obtain ⟨s, k, second, same⟩ := agree
      obtain ⟨k', second'⟩ := agree'
      exact ⟨wf, he, he', ⟨r, h, s, k, run, second, same, (Except.ok.inj folded).symm⟩,
        h', k', run', second'⟩
  · cases impossible

end BitvectorCode
