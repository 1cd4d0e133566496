import BitvectorCode.Proofs.Graph.Growth
import BitvectorCode.Rewrite.Driver
import Mathlib.Data.List.Forall2

/-!
# Passes over a well-formed graph

A callback that grows the graph and replaces a node only by one of the same width makes a pass that
does so too. The node that is rebuilt over rewritten children passes the sort check again, because
their widths are the old ones, so a pass fails only where its callback does.
-/

namespace BitvectorCode

open BitvectorCode.Graph

variable {σ : Type}

/-- The graph has only grown, the notes are sound, and a node that is to stand for `e` is as
wide. -/
def Callback.Answers (notesOk : Graph → σ → Prop) (g : Graph) (e : NodeId) (new : Option NodeId)
    (s : CallbackState σ) : Prop :=
  g.Grows s.graph ∧ notesOk s.graph s.notes ∧
    ∀ r, new = some r → r < s.graph.size ∧ s.graph.width r = g.width e

/-- A callback that only grows the graph, answers with nodes as wide as those it is asked about, and
fails only with errors of `fails`. What it notes stays sound when the graph grows. -/
structure Callback.Sound (notesOk : Graph → σ → Prop) (fails : Error → Prop)
    (callback : Callback σ) :
    Prop where
  mono : ∀ {g h : Graph} {notes : σ}, g.Grows h → notesOk g notes → notesOk h notes
  ensures : ∀ {g : Graph} {notes : σ} {e : NodeId}, g.WellFormed → notesOk g notes → e < g.size →
    Ensures (· = ⟨g, notes⟩) (callback e) (Answers notesOk g e) fun err s =>
      g.Grows s.graph ∧ fails err

theorem Callback.answers_none {notesOk : Graph → σ → Prop} {g : Graph} {notes : σ} {e : NodeId}
    {fail : Error → CallbackState σ → Prop} (wf : g.WellFormed) (hn : notesOk g notes) :
    Ensures (· = ⟨g, notes⟩) (pure none) (Answers notesOk g e) fail :=
  Ensures.pure fun _ h => h ▸ ⟨wf.grows, hn, by simp⟩

namespace Pass

/-- Every node is replaced by one of its width, and the notes are sound. -/
structure Sound (notesOk : Graph → σ → Prop) (s : Pass σ) : Prop where
  replaced : ∀ e r, s.replacements[e]? = some r →
    e < s.graph.size ∧ r < s.graph.size ∧ s.graph.width r = s.graph.width e
  notes : notesOk s.graph s.notes

variable {notesOk : Graph → σ → Prop} {fails : Error → Prop} {callback : Callback σ}

theorem sound_start {g : Graph} {notes : σ} (hn : notesOk g notes) :
    Sound notesOk ⟨g, ∅, notes⟩ := by
  refine ⟨fun e r h => ?_, hn⟩
  simp at h

theorem Sound.grow {g h : Graph} {replacements : Replacements} {notes notes' : σ}
    (hs : Sound notesOk ⟨g, replacements, notes⟩) (grown : g.Grows h) (hn : notesOk h notes') :
    Sound notesOk ⟨h, replacements, notes'⟩ := by
  refine ⟨fun e r hr => ?_, hn⟩
  obtain ⟨he, hr, hw⟩ := hs.replaced e r hr
  exact ⟨grown.lt_size he, grown.lt_size hr, by rw [grown.width_eq hr, grown.width_eq he, hw]⟩

theorem Sound.insert {s : Pass σ} {e r : NodeId} (hs : s.Sound notesOk) (he : e < s.graph.size)
    (hr : r < s.graph.size) (hw : s.graph.width r = s.graph.width e) :
    Sound notesOk { s with replacements := s.replacements.insert e r } := by
  refine ⟨fun e' r' h => ?_, hs.notes⟩
  change (s.replacements.insert e r)[e']? = some r' at h
  rw [Std.TreeMap.getElem?_insert] at h
  split at h
  · next heq =>
    cases h
    rw [← Std.compare_eq_iff_eq.1 heq]
    exact ⟨he, hr, hw⟩
  · exact hs.replaced e' r' h

/-- Nodes that can stand for others: they exist and have the same widths. -/
abbrev StandFor (g : Graph) (old new : List NodeId) : Prop :=
  List.Forall₂ (fun e r => r < g.size ∧ g.width r = g.width e) old new

theorem StandFor.map_width {g : Graph} {old new : List NodeId} (h : StandFor g old new) :
    new.map g.width = old.map g.width := by
  induction h with
  | nil => rfl
  | cons h _ ih => simp [h.2, ih]

theorem StandFor.lt_size {g : Graph} {old new : List NodeId} (h : StandFor g old new) :
    ∀ r ∈ new, r < g.size := by
  induction h with
  | nil => simp
  | cons h _ ih => simpa [h.1] using ih

theorem rebuild_self (e : NodeId) (s : Pass σ) : rebuild e (s.graph.expr e).children s = .ok e s :=
  congrFun (if_pos rfl) s

/-- The node over children that stand for its own is the node itself, or a new one that passes the
sort check. Over its own children nothing is added. -/
theorem rebuild_eq {g : Graph} (replacements : Replacements) (notes : σ) {e : NodeId}
    {ids : List NodeId} (wf : g.WellFormed) (he : e < g.size)
    (hids : StandFor g (g.expr e).children ids) :
    ∃ r h expr, rebuild e ids ⟨g, replacements, notes⟩ = .ok r ⟨h, replacements, notes⟩ ∧
      g.Grows h ∧ r < h.size ∧ (g.expr e).withChildren? ids = some expr ∧
      h.node r = ⟨expr, g.width e⟩ ∧ (ids = (g.expr e).children → r = e ∧ h = g) ∧
      (r = e ∨ r = g.size) := by
  by_cases hsame : ids = (g.expr e).children
  · rw [hsame]
    exact ⟨e, g, g.expr e, rebuild_self e ⟨g, replacements, notes⟩, wf.grows, he,
      Expr.withChildren?_children _, rfl, fun _ => ⟨rfl, rfl⟩, .inl rfl⟩
  · have run : rebuild e ids (⟨g, replacements, notes⟩ : Pass σ) =
        (if ids = (g.expr e).children then pure e
          else ofExcept ((g.expr e).withChildren ids) >>= fun expr =>
            build (Build.add expr (g.width e)) : EStateM Error (Pass σ) NodeId)
          ⟨g, replacements, notes⟩ := rfl
    obtain ⟨expr, hexpr⟩ : ∃ expr, (g.expr e).withChildren? ids = some expr := by
      have := Expr.isSome_withChildren? (g.expr e) ids
      rw [← hids.length_eq] at this
      simpa [Option.isSome_iff_exists] using this
    have hchildren : expr.children = ids := Expr.children_of_withChildren? hexpr
    have hlt : ∀ child ∈ expr.children, child < g.size := hchildren ▸ hids.lt_size
    have hsort := (wf.sortRule he).withChildren hexpr hids.map_width
    have hroots : expr.roots = (g.expr e).roots := Expr.roots_of_withChildren? hexpr
    have hconst : expr.constant? = none := Expr.constant?_of_withChildren? hexpr hsame
    have step := wf.push ⟨expr, g.width e⟩
      ⟨hlt, fun r hr => wf.root_lt he (hroots ▸ hr),
        sortOf_eq_ok_iff.2 ⟨hlt, hsort⟩, by simp [hconst]⟩
    refine ⟨g.size, g.push ⟨expr, g.width e⟩, expr, ?_, step, ?_, hexpr, node_push _,
      fun h => absurd h hsame, .inr rfl⟩
    · have hw : (g.expr e).withChildren ids = .ok expr := by simp [Expr.withChildren, hexpr]
      rw [run, if_neg hsame, hw]
      change build (Build.add expr (g.width e)) ⟨g, replacements, notes⟩ = _
      simp only [build, Build.add_eq hlt hsort]
    · exact lt_size_push _

theorem call_ensures {s : Pass σ} {e : NodeId} (hc : callback.Sound notesOk fails)
    (wf : s.graph.WellFormed) (hs : s.Sound notesOk) (he : e < s.graph.size) :
    Ensures (· = s) (call callback e)
      (fun new t => s.graph.Grows t.graph ∧ t.Sound notesOk ∧
        ∀ r, new = some r → r < t.graph.size ∧ t.graph.width r = s.graph.width e)
      fun err t => s.graph.Grows t.graph ∧ fails err := by
  rintro ⟨g, replacements, notes⟩ rfl
  obtain ⟨new, t, h, grown, notesOk', hnew⟩ | ⟨err, t, h, failed⟩ :=
    (hc.ensures wf hs.notes he).outcome rfl
  · simp only [call, h]
    exact ⟨grown, hs.grow grown notesOk', hnew⟩
  · simp only [call, h]
    exact failed

/-- In a pass over a graph that has grown from `g₀`, the nodes `es` of `g₀` are rewritten to nodes
of the same widths. -/
def Rewrites (notesOk : Graph → σ → Prop) (fails : Error → Prop) (g₀ : Graph) (es : List NodeId)
    (x : EStateM Error (Pass σ) (List NodeId)) : Prop :=
  Ensures (fun s => g₀.Grows s.graph ∧ s.Sound notesOk) x
    (fun rs s => g₀.Grows s.graph ∧ s.Sound notesOk ∧
      List.Forall₂ (fun e r => r < s.graph.size ∧ s.graph.width r = g₀.width e) es rs)
    fun err s => g₀.Grows s.graph ∧ fails err

/-- In a pass over a graph that has grown from `g₀`, a node of `g₀` is rewritten to one of its
width. -/
def RewritesNode (notesOk : Graph → σ → Prop) (fails : Error → Prop) (g₀ : Graph) (e : NodeId)
    (x : EStateM Error (Pass σ) NodeId) : Prop :=
  Ensures (fun s => g₀.Grows s.graph ∧ s.Sound notesOk) x
    (fun r s => g₀.Grows s.graph ∧ s.Sound notesOk ∧ r < s.graph.size ∧
      s.graph.width r = g₀.width e)
    fun err s => g₀.Grows s.graph ∧ fails err

/-- What holds of the rewriting of each node holds of all of them one after the other, because a
node rewritten early is not lost when the graph grows. -/
theorem mapM_rewrites {g₀ : Graph} {es : List NodeId} {f : NodeId → EStateM Error (Pass σ) NodeId}
    (hes : ∀ e ∈ es, e < g₀.size)
    (hf : ∀ e ∈ es, ∀ {g : Graph}, e < g.size → RewritesNode notesOk fails g e (f e)) :
    Rewrites notesOk fails g₀ es (es.mapM f) := by
  induction es generalizing g₀ with
  | nil => exact Ensures.pure fun s hs => ⟨hs.1, hs.2, .nil⟩
  | cons e es ih =>
    rw [List.mapM_cons]
    apply Ensures.bind (hf e (by simp) (hes e (by simp)))
    intro r s hpost
    obtain ⟨grown, hs, hr, hw⟩ := hpost
    have hes' : ∀ e' ∈ es, e' < s.graph.size := fun e' he' => grown.lt_size (hes e' (by simp [he']))
    have rest := ih hes' fun e' he' => hf e' (by simp [he'])
    apply (Ensures.weaken_fail rest fun err t h => ⟨grown.trans h.1, h.2⟩).bind _ s
      ⟨grown.wellFormed.grows, hs⟩
    intro rs t hpost
    obtain ⟨more, ht, hrs⟩ := hpost
    refine ⟨grown.trans more, ht, .cons ⟨more.lt_size hr, by rw [more.width_eq hr, hw]⟩ ?_⟩
    have hold : ∀ e' ∈ es, s.graph.width e' = g₀.width e' := fun e' he' =>
      grown.width_eq (hes e' (by simp [he']))
    exact ((List.forall₂_and_left es rs).2 ⟨hold, hrs⟩).imp fun e' r' h => ⟨h.2.1, h.2.2.trans h.1⟩

/-- The end of a step, once the children are rewritten: the node is rebuilt, the callback is asked,
and the answer is kept. -/
def finish (callback : Callback σ) (e : NodeId) (ids : List NodeId) :
    EStateM Error (Pass σ) NodeId := do
  let rebuilt ← rebuild e ids
  let result := (← call callback rebuilt).getD rebuilt
  modify fun s => { s with replacements := s.replacements.insert e result }
  return result

theorem finish_rewrites (hc : callback.Sound notesOk fails) {s : Pass σ} {e : NodeId}
    {ids : List NodeId} (wf : s.graph.WellFormed) (hs : s.Sound notesOk) (he : e < s.graph.size)
    (hids : StandFor s.graph (s.graph.expr e).children ids) :
    Ensures (· = s) (finish callback e ids)
      (fun r t => s.graph.Grows t.graph ∧ t.Sound notesOk ∧ r < t.graph.size ∧
        t.graph.width r = s.graph.width e)
      fun err t => s.graph.Grows t.graph ∧ fails err := by
  obtain ⟨g, replacements, notes⟩ := s
  obtain ⟨rebuilt, h, expr, hrun, step, hr, -, hnode, -⟩ :=
    rebuild_eq replacements notes wf he hids
  have hw : h.width rebuilt = g.width e := by simp [width, hnode]
  have hs' : Sound notesOk ⟨h, replacements, notes⟩ := hs.grow step (hc.mono step hs.notes)
  have first : Ensures (· = (⟨g, replacements, notes⟩ : Pass σ)) (rebuild e ids)
      (fun r t => r = rebuilt ∧ t = ⟨h, replacements, notes⟩)
      fun err t => g.Grows t.graph ∧ fails err := by
    rintro _ rfl
    rw [hrun]
    exact ⟨rfl, rfl⟩
  apply first.bind
  intro r
  have asked := (call_ensures hc step.wellFormed hs' hr).weaken (fun _ h => h) (fun _ _ h => h)
    fun err t (h : _ ∧ fails err) => (⟨step.trans h.1, h.2⟩ : g.Grows t.graph ∧ fails err)
  rintro _ ⟨rfl, rfl⟩
  refine asked.bind (fun new => ?_) _ rfl
  intro t ht
  rcases ht with ⟨more, ht, hnew⟩
  have het : e < t.graph.size := more.lt_size (step.lt_size he)
  have hwt : t.graph.width e = g.width e := by
    rw [more.width_eq (step.lt_size he), step.width_eq he]
  obtain ⟨hlt, hwr⟩ : new.getD r < t.graph.size ∧ t.graph.width (new.getD r) = g.width e := by
    cases new with
    | none => exact ⟨more.lt_size hr, by rw [Option.getD_none, more.width_eq hr, hw]⟩
    | some r' => exact ⟨(hnew r' rfl).1, (hnew r' rfl).2.trans hw⟩
  exact ⟨step.trans more, ht.insert het hlt (hwr.trans hwt.symm), hlt, hwr⟩

/-- A pass with a sound callback rewrites each node to one of its width, and fails only where the
callback does. -/
theorem rewriteWithin_rewrites (hc : callback.Sound notesOk fails) {g₀ : Graph} {depth : Nat}
    {e : NodeId} (hd : e < depth) (he : e < g₀.size) :
    RewritesNode notesOk fails g₀ e (rewriteWithin callback depth e) := by
  induction depth generalizing g₀ e with
  | zero => exact absurd hd (Nat.not_lt_zero e)
  | succ depth ih =>
    apply Ensures.bind_get
    intro s hpre
    obtain ⟨grown, hs⟩ := hpre
    cases hr : s.replacements[e]? with
    | some r =>
      rintro _ rfl
      obtain ⟨-, hlt, hw⟩ := hs.replaced e r hr
      exact ⟨grown, hs, hlt, hw.trans (grown.width_eq he)⟩
    | none =>
      apply Ensures.bind_get
      intro s' hs'
      subst hs'
      have hes : e < s'.graph.size := grown.lt_size he
      have below : ∀ child ∈ (s'.graph.expr e).children, child < e := fun child hchild =>
        grown.wellFormed.child_lt hchild
      have first : Rewrites notesOk fails s'.graph (s'.graph.expr e).children
          ((s'.graph.expr e).children.mapM (rewriteWithin callback depth)) :=
        mapM_rewrites (fun child hchild => Nat.lt_trans (below child hchild) hes)
          fun child hchild _ hlt => ih (by have := below child hchild; lia) hlt
      apply (Ensures.start first ⟨grown.wellFormed.grows, hs⟩ (fun _ _ h => h) fun err t h =>
        ⟨grown.trans h.1, h.2⟩).bind
      intro ids t hpost
      obtain ⟨more, ht, hids⟩ := hpost
      have stand : StandFor t.graph (t.graph.expr e).children ids := by
        rw [more.expr_eq hes]
        have hold : ∀ child ∈ (s'.graph.expr e).children,
            t.graph.width child = s'.graph.width child := fun child hchild =>
          more.width_eq (Nat.lt_trans (below child hchild) hes)
        exact ((List.forall₂_and_left _ ids).2 ⟨hold, hids⟩).imp fun child r h =>
          ⟨h.2.1, h.2.2.trans h.1.symm⟩
      have last := finish_rewrites hc more.wellFormed ht (more.lt_size hes) stand
      apply last.weaken (fun _ h => h) _ _ t rfl
      · intro r u h
        obtain ⟨further, hu, hr, hw⟩ := h
        have hwidth : u.graph.width r = g₀.width e := by
          rw [hw, more.width_eq hes, grown.width_eq he]
        exact ⟨(grown.trans more).trans further, hu, hr, hwidth⟩
      · intro err u h
        exact ⟨(grown.trans more).trans h.1, h.2⟩

theorem rewrite_rewrites (hc : callback.Sound notesOk fails) {g : Graph} {e : NodeId}
    (he : e < g.size) : RewritesNode notesOk fails g e (rewrite callback e) := by
  apply Ensures.bind_get
  intro s hpre
  obtain ⟨grown, hs⟩ := hpre
  have hd : e < UInt32.size + s.graph.size := Nat.lt_add_left _ (grown.lt_size he)
  exact Ensures.start (rewriteWithin_rewrites hc hd he) ⟨grown, hs⟩ (fun _ _ h => h) fun _ _ h => h

end Pass

end BitvectorCode
