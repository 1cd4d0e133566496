import BitvectorCode.Proofs.Eval.Evaluation
import BitvectorCode.Proofs.Rewrite.Pass
import BitvectorCode.Rewrite.ByteSwap
import BitvectorCode.Rewrite.Fold

/-!
# Renaming, byte swaps and folding

The callbacks of the passes are sound. Renaming and swapping replace a read by a read and cannot
fail on a well-formed graph, and folding fails only at a signed operation that is too wide to
evaluate.
-/

namespace BitvectorCode

open BitvectorCode.Graph

namespace Build

variable {g₀ : Graph}

theorem addRoot_ensures {root : Root} :
    Ensures g₀.Grows (addRoot root) (fun r g => g₀.Grows g ∧ r < g.roots.size)
      fun _ _ => False := by
  intro g grown
  constructor
  · exact grown.trans (grown.wellFormed.addRoot root)
  simp

end Build

namespace CallbackState

variable {σ α : Type} {x : Build α} {pre : Graph → Prop} {post : α → Graph → Prop}
  {fail : Error → Graph → Prop}

theorem build_ensures (h : Ensures pre x post fail) (notes : σ) :
    Ensures (fun s => pre s.graph ∧ s.notes = notes) (build x)
      (fun a s => post a s.graph ∧ s.notes = notes) fun err s => fail err s.graph := by
  rintro ⟨g, _⟩ ⟨hg, rfl⟩
  obtain ⟨a, t, hx, ht⟩ | ⟨err, t, hx, ht⟩ := h.outcome hg
  · simp only [build, hx]
    exact ⟨ht, trivial⟩
  · simp only [build, hx]
    exact ht

theorem build_constant_ensures {g : Graph} (notes : σ) {c : Constant} (wf : g.WellFormed)
    (hc : c.Valid) :
    Ensures (· = ⟨g, notes⟩) (build (Build.constant c))
      (fun r s => g.Grows s.graph ∧ s.notes = notes ∧ r < s.graph.size ∧
        s.graph.node r = ⟨.constant c, c.bits⟩)
      fun _ _ => False := by
  have step := wf.grows_push_constant hc
  rintro _ rfl
  simp only [build, Build.constant, Build.push]
  exact ⟨step, trivial, lt_size_push _, node_push _⟩

theorem build_read_ensures {g : Graph} (notes : σ) {root : RootId} {index : NodeId}
    (wf : g.WellFormed) (hr : root < g.roots.size) (hi : index < g.size) :
    Ensures (· = ⟨g, notes⟩) (build (Build.read root index))
      (fun r s => g.Grows s.graph ∧ s.notes = notes ∧ r < s.graph.size ∧
        s.graph.node r = ⟨.read root index, 8⟩)
      fun _ _ => False := by
  have step := wf.grows_push_read hr hi
  rintro _ rfl
  simp only [build, Build.read_eq hr hi]
  exact ⟨step, trivial, lt_size_push _, node_push _⟩

end CallbackState

namespace Graph

def HasRoots (g : Graph) (newRoots : NewRoots) : Prop :=
  ∀ (old new : RootId), newRoots[old]? = some new → new < g.roots.size

variable {g h : Graph} {newRoots : NewRoots} {old new : RootId}

theorem hasRoots_empty : g.HasRoots ∅ := by
  intro old new h
  simp at h

theorem HasRoots.insert (h : g.HasRoots newRoots) (hn : new < g.roots.size) :
    g.HasRoots (newRoots.insert old new) := by
  intro old' new' h'
  rw [Std.TreeMap.getElem?_insert] at h'
  split at h'
  · cases h'
    exact hn
  · exact h old' new' h'

theorem HasRoots.mono (gh : g.Grows h) (hr : g.HasRoots newRoots) : h.HasRoots newRoots :=
  fun old new hn => Nat.lt_of_lt_of_le (hr old new hn) gh.isExtendedBy.roots_size_le

end Graph

namespace Renamer

theorem newRoot_ensures {g : Graph} {newRoots : NewRoots} {old : RootId} {name : String}
    (wf : g.WellFormed) (hn : g.HasRoots newRoots) :
    Ensures (· = ⟨g, newRoots⟩) (newRoot old name)
      (fun new s => g.Grows s.graph ∧ s.graph.HasRoots s.notes ∧ new < s.graph.roots.size)
      fun _ _ => False := by
  apply Ensures.bind_get
  intro s hs
  subst hs
  cases hold : newRoots[old]? with
  | some new =>
    exact .pure fun _ h => h ▸ ⟨wf.grows, hn, hn old new hold⟩
  | none =>
    apply Ensures.bind_get
    intro s hs
    subst hs
    refine Ensures.bind ((CallbackState.build_ensures Build.addRoot_ensures newRoots).start
      ⟨wf.grows, rfl⟩ (fun _ _ h => h) fun _ _ h => h) fun new => ?_
    rintro ⟨h, notes⟩ ⟨⟨grown, hnew⟩, rfl⟩
    exact ⟨grown, (hn.mono grown).insert hnew, hnew⟩

theorem callback_sound (translations : Translations) :
    (callback translations).Sound HasRoots fun _ => False := by
  refine ⟨fun gh h => h.mono gh, fun {g newRoots e} wf hn he => ?_⟩
  apply Ensures.bind_get
  intro s hs
  subst hs
  cases hx : g.expr e with
  | read old index =>
    simp only [hx]
    cases translations[(g.root old).name]? with
    | none => exact Callback.answers_none wf hn
    | some name =>
      have hi : index < g.size := wf.child_lt_size he (by simp [hx, Expr.children])
      apply (newRoot_ensures wf hn).sure.bind
      intro new t hpost
      obtain ⟨grown, hnotes, hnew⟩ := hpost
      have hread :=
        CallbackState.build_read_ensures t.notes grown.wellFormed hnew (grown.lt_size hi)
      apply hread.sure.bind _ t rfl
      intro r u hu
      rcases hu with ⟨more, hu, hr, hn⟩
      have hw : u.graph.width r = 8 := congrArg Node.width hn
      refine ⟨grown.trans more, hu ▸ hnotes.mono more, ?_⟩
      rintro _ ⟨⟩
      have hs := wf.sortRule he
      rw [hx] at hs
      exact ⟨hr, hw.trans hs.symm⟩
  | _ =>
    simp only [hx]
    exact Callback.answers_none wf hn

end Renamer

namespace ByteSwapper

theorem callback_sound (symbol : String) (ranges : List ByteRange) :
    (callback symbol ranges).Sound (fun _ _ => True) fun _ => False := by
  refine ⟨fun _ h => h, fun {g swapped e} wf _ he => ?_⟩
  apply Ensures.bind_get
  intro s hs
  subst hs
  cases hx : g.expr e with
  | read root index =>
    simp only [hx]
    by_cases hname : (g.root root).name ≠ symbol
    · rw [if_pos hname]
      exact Callback.answers_none wf trivial
    rw [if_neg hname]
    cases (g.expr index).constant? with
    | none => exact Callback.answers_none wf trivial
    | some c =>
      dsimp only
      split
      · exact Callback.answers_none wf trivial
      · next mirrored _ =>
        have hr : root < g.roots.size := wf.root_lt he (by simp [hx, Expr.roots])
        have hvalid : (Constant.ofNat mirrored c.bits).Valid := Constant.ofNat_valid mirrored c.bits
        apply (CallbackState.build_constant_ensures swapped wf hvalid).sure.bind
        rintro index' ⟨h, notes⟩ ⟨grown, -, hi, -⟩
        have hr' := Nat.lt_of_lt_of_le hr grown.isExtendedBy.roots_size_le
        have hread := CallbackState.build_read_ensures true grown.wellFormed hr' hi
        apply hread.sure.bind _ ⟨h, true⟩ rfl
        intro r u hu
        rcases hu with ⟨more, -, hlt, hn⟩
        have hw : u.graph.width r = 8 := congrArg Node.width hn
        refine ⟨grown.trans more, trivial, ?_⟩
        rintro _ ⟨⟩
        have hs := wf.sortRule he
        rw [hx] at hs
        exact ⟨hlt, hw.trans hs.symm⟩
  | _ =>
    simp only [hx]
    exact Callback.answers_none wf trivial

end ByteSwapper

theorem foldCallback_sound :
    foldCallback.Sound (fun _ _ => True) fun err => ∃ width, err = .tooWide width := by
  refine ⟨fun _ h => h, fun {g notes e} wf _ he => ?_⟩
  apply Ensures.bind_get
  intro s hs
  subst hs
  have sorted := wf.wellSorted_tree he
  have value : g.eval e = (g.tree e).eval .none := eval_eq_tree wf he
  dsimp only
  split
  · exact Callback.answers_none wf trivial
  split
  · exact Callback.answers_none wf trivial
  cases hv : g.eval e with
  | ok c =>
    obtain ⟨hbits, hvalid⟩ := Tree.eval_fits sorted (value ▸ hv)
    apply (CallbackState.build_constant_ensures notes wf hvalid).sure.bind
    intro r t ht
    rcases ht with ⟨grown, -, hlt, hn⟩
    have hw : t.graph.width r = c.bits := congrArg Node.width hn
    refine ⟨grown, trivial, ?_⟩
    rintro _ ⟨⟩
    exact ⟨hlt, by rw [hw, hbits, wf.width_tree he]⟩
  | error err =>
    have herr := Tree.eval_error sorted (value ▸ hv)
    cases err with
    | symbolicRead | divisionByZero => exact Callback.answers_none wf trivial
    | tooWide width => exact .throw fun _ h => h ▸ ⟨wf.grows, width, rfl⟩
    | _ => exact herr.elim

/-- Folding fails only at an operation that is too wide to evaluate. -/
theorem Build.fold_replaces {g₀ : Graph} {e : NodeId} (he : e < g₀.size) :
    Replaces id (fun err => ∃ width, err = .tooWide width) g₀ e (fold e) := by
  have pass := Pass.rewrite_rewrites foldCallback_sound he
  have first : Ensures g₀.Grows (rewriteFrom () foldCallback e)
      (fun r g => g₀.Grows g ∧ r.1 < g.size ∧ g.width r.1 = g₀.width e)
      fun err g => g₀.Grows g ∧ ∃ width, err = .tooWide width := by
    intro g grown
    obtain ⟨r, s, h, hs⟩ | ⟨err, s, h, failed⟩ :=
      pass.outcome (s := ⟨g, ∅, ()⟩) ⟨grown, Pass.sound_start trivial⟩
    · simp only [rewriteFrom, h]
      exact ⟨hs.1, hs.2.2⟩
    · simp only [rewriteFrom, h]
      exact failed
  exact first.bind fun r => .pure fun _ h => h

namespace Renaming

def Sound (s : Renaming) : Prop :=
  Pass.Sound HasRoots ⟨s.graph, s.renamer.replacements, s.renamer.newRoots⟩

variable {g₀ : Graph} {e : NodeId}

theorem start_ensures {fail : Error → Renaming → Prop} :
    Ensures (fun s => g₀.Grows s.graph) start (fun _ s => g₀.Grows s.graph ∧ s.Sound) fail :=
  fun _ h => ⟨h, Pass.sound_start hasRoots_empty⟩

theorem resume_ensures (he : e < g₀.size) :
    Ensures (fun s => g₀.Grows s.graph ∧ s.Sound) (resume e)
      (fun r s => g₀.Grows s.graph ∧ s.Sound ∧ r < s.graph.size ∧ s.graph.width r = g₀.width e)
      fun _ _ => False := by
  rintro ⟨g, translations, replacements, newRoots⟩ ⟨grown, hs⟩
  have hs : Pass.Sound HasRoots ⟨g, replacements, newRoots⟩ := hs
  obtain ⟨r, s, h, outcome⟩ | ⟨err, s, h, failed⟩ :=
    (Pass.rewrite_rewrites (Renamer.callback_sound translations) he).outcome
      (s := ⟨g, replacements, newRoots⟩) ⟨grown, hs⟩
  · simp only [resume, h]
    exact outcome
  · exact failed.2.elim

/-- Renaming an expression never fails, whatever was renamed before. -/
theorem rename_replaces (he : e < g₀.size) :
    Replaces Renaming.graph (fun _ => False) g₀ e (rename e) :=
  start_ensures.bind fun _ =>
    (resume_ensures he).sure.weaken (fun _ h => h) (fun _ _ h => ⟨h.1, h.2.2⟩) fun _ _ h => h

theorem renameConstraints_ensures {es : List NodeId} {renamed : ConstraintSet}
    (hes : ∀ e ∈ es, e < g₀.size) :
    Ensures (fun s => g₀.Grows s.graph ∧ s.Sound) (renameConstraints es renamed)
      (fun _ s => g₀.Grows s.graph) fun _ s => g₀.Grows s.graph := by
  induction es generalizing renamed with
  | nil => exact .pure fun _ h => h.1
  | cons e es ih =>
    have hrest : ∀ e' ∈ es, e' < g₀.size := fun e' he' => hes e' (by simp [he'])
    apply (resume_ensures (hes e (by simp))).sure.bind
    intro r
    apply Ensures.bind_get
    intro s hpre
    obtain ⟨grown, hs, -, -⟩ := hpre
    apply Ensures.bind (m := fun _ t => t = s)
    · exact .ofExcept (fun _ _ _ h => h) fun _ _ _ h => h ▸ grown
    · intro _
      exact (ih hrest).weaken_pre fun _ h => h ▸ ⟨grown, hs⟩

theorem renameSets_ensures {sets : List ConstraintSet}
    (hsets : ∀ set ∈ sets, ∀ e ∈ set.constraints, e < g₀.size) :
    Ensures (fun s => g₀.Grows s.graph) (renameSets sets)
      (fun _ s => g₀.Grows s.graph) fun _ s => g₀.Grows s.graph := by
  induction sets with
  | nil => exact .pure fun _ h => h
  | cons set sets ih =>
    unfold renameSets
    rw [List.mapM_cons]
    apply (start_ensures.bind fun _ => renameConstraints_ensures (hsets set (by simp))).bind
    intro _
    apply (ih fun set' hset' => hsets set' (by simp [hset'])).bind
    intro _
    exact .pure fun _ h => h

end Renaming

theorem Build.rename_replaces {g₀ : Graph} {translations : Translations} {e : NodeId}
    (he : e < g₀.size) : Replaces id (fun _ => False) g₀ e (rename translations e) := by
  intro g grown
  obtain ⟨r, s, h, outcome⟩ | ⟨err, s, h, failed⟩ := (Renaming.rename_replaces he).outcome
    (s := ⟨g, .ofTranslations translations⟩) grown
  · simp only [rename, h]
    exact outcome
  · exact failed.2.elim

namespace Swapping

variable {g₀ : Graph} {e : NodeId} {fails : Error → Prop}

theorem build_replaces {x : Build NodeId} (h : Replaces id fails g₀ e x) :
    Replaces Swapping.graph fails g₀ e (build x) := by
  rintro ⟨g, names, swapper⟩ grown
  obtain ⟨r, t, hx, outcome⟩ | ⟨err, t, hx, failed⟩ := h.outcome grown
  · simp only [build, hx]
    exact outcome
  · simp only [build, hx]
    exact failed

theorem mirrorReads_replaces {symbol : String} (he : e < g₀.size) :
    Replaces Swapping.graph (fun _ => False) g₀ e (mirrorReads symbol e) := by
  rintro ⟨g, names, swapper⟩ grown
  obtain ⟨r, s, h, outcome⟩ | ⟨err, s, h, failed⟩ :=
    (Pass.rewrite_rewrites (ByteSwapper.callback_sound symbol swapper.ranges) he).outcome
      (s := ⟨g, ∅, false⟩) ⟨grown, Pass.sound_start trivial⟩
  · simp only [mirrorReads, h]
    exact ⟨outcome.1, outcome.2.2⟩
  · exact failed.2.elim

/-- Swapping never fails, as none of its three passes does. -/
theorem swap_replaces (he : e < g₀.size) :
    Replaces Swapping.graph (fun _ => False) g₀ e (swap e) := by
  apply Ensures.bind (m := fun _ s => g₀.Grows s.graph)
  · exact .modify fun _ h => h
  intro _
  apply Ensures.bind_get
  intro s grown
  apply Ensures.bind (m := fun _ t => g₀.Grows t.graph)
  · rintro _ rfl
    exact grown
  intro _
  exact (build_replaces (Build.rename_replaces he)).bind fun hr =>
    (mirrorReads_replaces hr).bind fun hm => build_replaces (Build.rename_replaces hm)

end Swapping

end BitvectorCode
