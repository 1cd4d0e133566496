import BitvectorCode.Proofs.Rewrite.Trees

/-!
# What a callback is asked

A pass asks its callback once about each node that it comes to, after the children of the node. It
comes to the nodes below the expression, but not past one that already has an entry. So sharing
costs nothing, and a callback that neither replaces nor adds anything leaves the expression and the
graph as they are.
-/

namespace BitvectorCode

/-- The nodes that `e` leads to around the ones in `stops`, each once and after its children. -/
structure Graph.BottomUp (g : Graph) (stops : NodeId → Prop) (e : NodeId)
    (nodes : List NodeId) : Prop where
  nodup : nodes.Nodup
  mem_iff : ∀ n, n ∈ nodes ↔ g.ReachesAround stops e n
  children_first : ∀ before n after, nodes = before ++ n :: after →
    ∀ child ∈ (g.expr n).children, stops child ∨ child ∈ before

variable {σ : Type}

/-- Whenever the callback answers, it neither replaces the node nor adds one. -/
def Callback.LeavesAlone (notesOk : Graph → σ → Prop) (callback : Callback σ) : Prop :=
  ∀ {g : Graph} {notes : σ} {e : NodeId} {new : Option NodeId} {s : CallbackState σ}, g.WellFormed →
    notesOk g notes → e < g.size → callback e ⟨g, notes⟩ = .ok new s → new = none ∧ s.graph = g

/-- Whenever the callback answers, it answers with a node whose tree is what `step` makes of the
tree of the node it was asked about. -/
def Callback.Makes (notesOk : Graph → σ → Prop) (step : Tree → Except Error Tree)
    (callback : Callback σ) : Prop :=
  ∀ {g : Graph} {notes : σ} {e : NodeId} {new : Option NodeId} {s : CallbackState σ}, g.WellFormed →
    notesOk g notes → e < g.size → callback e ⟨g, notes⟩ = .ok new s →
    step (g.tree e) = .ok (s.graph.tree (new.getD e))

def Callback.recording : Callback (List NodeId) := fun e => do
  modify fun s => { s with notes := s.notes ++ [e] }
  return none

theorem Callback.recording_sound : recording.Sound (fun _ _ => True) fun _ => False where
  mono := fun _ h => h
  ensures := by
    rintro g notes e wf - - _ rfl
    exact ⟨wf.grows, trivial, nofun⟩

theorem Callback.recording_leavesAlone : recording.LeavesAlone fun _ _ => True := by
  intro g notes e new s _ _ _ h
  cases h
  exact ⟨rfl, rfl⟩

namespace Pass

/-- A node that a pass comes to, and the node over what stands for its children, which the callback
is asked about. -/
structure Visit where
  node : NodeId
  asked : NodeId

/-- From `s` a pass over a graph that has grown from `g₀` gets to `t` by asking its callback at the
`visits`, one after the other, and keeping the answers. In between it does nothing but rebuild
nodes. -/
inductive Asks (callback : Callback σ) (g₀ : Graph) (s : Pass σ) : List Visit → Pass σ → Prop
  | start : Asks callback g₀ s [] s
  | rebuild {visits : List Visit} {t : Pass σ} {h : Graph} {n m : NodeId} {ids : List NodeId} :
      Asks callback g₀ s visits t → Pass.rebuild n ids t = .ok m { t with graph := h } →
      Asks callback g₀ s visits { t with graph := h }
  | ask {visits : List Visit} {t : Pass σ} {n m : NodeId} {ids : List NodeId} {new : Option NodeId}
      {u : CallbackState σ} : Asks callback g₀ s visits t → Rebuilt g₀ t n ids m →
      callback m ⟨t.graph, t.notes⟩ = .ok new u →
      Asks callback g₀ s (visits ++ [⟨n, m⟩])
        ⟨u.graph, t.replacements.insert n (new.getD m), u.notes⟩

/-- After some visits, the callback itself fails when it is asked about one more node. -/
def FailsAsking (callback : Callback σ) (g₀ : Graph) (s : Pass σ) (err : Error) : Prop :=
  ∃ visits t n ids m u, Asks callback g₀ s visits t ∧ Rebuilt g₀ t n ids m ∧
    callback m ⟨t.graph, t.notes⟩ = .error err u

variable {notesOk : Graph → σ → Prop} {fails : Error → Prop} {callback : Callback σ}
variable {g₀ g : Graph} {s t : Pass σ} {visits : List Visit} {e n : NodeId}

namespace Asks

theorem hasEntry_iff (h : Asks callback g₀ s visits t) :
    t.HasEntry n ↔ s.HasEntry n ∨ n ∈ visits.map Visit.node := by
  induction h with
  | start => simp
  | rebuild _ _ ih => exact ih
  | ask _ _ _ ih =>
    rw [HasEntry, exists_insert_iff, List.map_append, List.mem_append, ← or_assoc, ← ih, or_comm]
    simp

theorem childrenFirst (h : Asks callback g₀ s visits t) :
    g₀.ChildrenFirstAround s.HasEntry (visits.map Visit.node) := by
  induction h with
  | start => exact .nil
  | rebuild _ _ ih => exact ih
  | ask earlier hm _ ih =>
    rw [List.map_append]
    exact ih.snoc (fun hn => hm.not_hasEntry (earlier.hasEntry_iff.2 (.inr hn)))
      (fun hs => hm.not_hasEntry (earlier.hasEntry_iff.2 (.inl hs)))
      fun child hchild => earlier.hasEntry_iff.1 (hm.exists_entry child hchild)

theorem notes_eq (h : Asks callback g₀ s visits t) (note : σ → NodeId → σ)
    (hnote : ∀ m u new v, callback m u = .ok new v → v.notes = note u.notes m) :
    t.notes = (visits.map Visit.asked).foldl note s.notes := by
  induction h with
  | start => rfl
  | rebuild _ _ ih => exact ih
  | ask _ _ hcall ih =>
    rw [List.map_append, List.foldl_append, ← ih]
    exact hnote _ _ _ _ hcall

theorem asked_eq_notes {t : Pass (List NodeId)} {replacements : Replacements}
    (h : Asks .recording g₀ ⟨g, replacements, []⟩ visits t) : visits.map Visit.asked = t.notes := by
  have noted := h.notes_eq (fun notes m => notes ++ [m]) fun m u new v hcall => by
    cases hcall
    rfl
  rw [noted, List.foldl_append_eq_append, ← List.flatMap_def, List.flatMap_singleton',
    List.nil_append]

/-- A pass that gives an entry to `e`, and no new ones but to nodes that `e` leads to around the old
entries, visits all of these nodes. -/
theorem bottomUp (h : Asks callback g₀ s visits t)
    (leads : Leads (g₀.ReachesAround s.HasEntry e) s t) (he : t.HasEntry e) :
    g₀.BottomUp s.HasEntry e (visits.map Visit.node) where
  nodup := h.childrenFirst.nodup
  children_first := fun _ _ _ hsplit => h.childrenFirst.children_mem hsplit
  mem_iff := by
    intro n
    constructor
    · intro hn
      obtain ⟨r, hr⟩ := h.hasEntry_iff.2 (.inr hn)
      exact (leads.added n r hr).resolve_left fun hs => h.childrenFirst.not_stops hn ⟨r, hs⟩
    · intro hn
      have entry : t.HasEntry n := by
        refine hn.closed he fun m hm hfresh child hchild => h.hasEntry_iff.2 ?_
        have visited := (h.hasEntry_iff.1 hm).resolve_left hfresh
        exact h.childrenFirst.closed visited child hchild
      exact (h.hasEntry_iff.1 entry).resolve_left hn.not_stops

end Asks

/-- A pass asks its callback at one visit after the other, and fails where the callback does. -/
theorem keeps_asks : Keeps notesOk callback g₀ (fun t => ∃ visits, Asks callback g₀ s visits t)
    fun _ err => FailsAsking callback g₀ s err where
  grow := fun ht _ _ hrun => ht.inv.imp fun _ asks => asks.rebuild hrun
  up := fun _ _ _ _ failed => failed
  step := by
    intro t n ids m ht hm
    obtain ⟨visits, asks⟩ := ht.inv
    exact .of_runs (fun new u hcall _ => ⟨_, asks.ask hm hcall⟩)
      fun err u hcall => ⟨visits, t, n, ids, m, u, asks, hm, hcall⟩

structure Unchanged (g₀ : Graph) (s : Pass σ) : Prop where
  graph_eq : s.graph = g₀
  same : Remembered (fun n r => r = n) s.replacements

theorem Unchanged.ids_eq {ids : List NodeId} (hs : Unchanged g₀ s)
    (hids : List.Forall₂ (fun child r => s.replacements[child]? = some r)
      (g₀.expr e).children ids) :
    ids = (g₀.expr e).children :=
  (List.forall₂_eq_eq_eq ▸ hids.imp fun child r hr => (hs.same child r hr).symm).symm

theorem keeps_unchanged (alone : callback.LeavesAlone notesOk) :
    Keeps notesOk callback g₀ (Unchanged g₀) fun _ _ => True where
  grow := by
    rintro s h e m ids ⟨-, -, rfl, same⟩ - hids hrun
    obtain rfl := Unchanged.ids_eq ⟨rfl, same⟩ hids
    obtain ⟨-, hs⟩ := EStateM.Result.ok.inj ((rebuild_self e s).symm.trans hrun)
    obtain rfl : s.graph = h := congrArg graph hs
    exact ⟨rfl, same⟩
  up := fun _ _ _ _ _ => trivial
  step := by
    intro s e ids m hs hm
    refine .of_runs (fun new u hcall _ => ?_) fun _ _ _ => trivial
    obtain ⟨rfl, hgraph⟩ := alone hs.grows.wellFormed hs.sound.notes hm.lt_size hcall
    exact ⟨hgraph.trans hs.inv.graph_eq, hs.inv.same.insert (hm.same (hs.inv.ids_eq hm.children))⟩

theorem keeps_made {step : Tree → Except Error Tree} (wf : g₀.WellFormed)
    (makes : callback.Makes notesOk step) :
    Keeps notesOk callback g₀ (RewritesTrees step g₀) fun _ _ => True where
  grow := fun hs grown _ _ => hs.inv.grow hs grown
  up := fun _ _ _ _ _ => trivial
  step := by
    intro s e ids m hs hm
    refine .of_runs (fun new u hcall grown => ?_) fun _ _ _ => trivial
    have made := makes hs.grows.wellFormed hs.sound.notes hm.lt_size hcall
    exact (hs.inv.grow hs grown).insert ((hs.inv.step_rebuilt wf hs.grows hm).trans made)

/-- A pass answers with a node of the same width, and fails only where its callback does. The
callback is asked once about each node that the expression leads to around the entries of the table,
after the children of the node. From an empty table on, a callback that neither replaces nor adds a
node gets the expression back in the same graph, and one that makes trees of trees gets the tree
rewritten from the leaves up. -/
theorem rewrite_asks_once {replacements : Replacements} {notes : σ} (wf : g.WellFormed)
    (he : e < g.size) (hc : callback.Sound notesOk fails)
    (hs : Sound notesOk ⟨g, replacements, notes⟩) :
    Ensures (· = ⟨g, replacements, notes⟩) (rewrite callback e)
      (fun r t => r < t.graph.size ∧ t.graph.width r = g.width e ∧
        (∃ visits, Asks callback g ⟨g, replacements, notes⟩ visits t ∧
          g.BottomUp (fun n => ∃ r' : NodeId, replacements[n]? = some r') e
            (visits.map Visit.node)) ∧
        ((∀ n : NodeId, replacements[n]? = none) →
          (callback.LeavesAlone notesOk → r = e ∧ t.graph = g) ∧
          ∀ step, callback.Makes notesOk step → (g.tree e).rewriteUp step = .ok (t.graph.tree r)))
      fun err _ => FailsAsking callback g ⟨g, replacements, notes⟩ err := by
  have asks := rewrite_keeps hc keeps_asks wf he ⟨wf.grows, hs, [], .start⟩
  refine .of_runs (fun r t run => ?_) fun err t run => asks.of_error rfl run
  obtain ⟨-, -, hr, hw⟩ := (rewrite_rewrites hc he).of_ok ⟨wf.grows, hs⟩ run
  obtain ⟨leads, ⟨-, -, visits, hasks⟩, hentry⟩ := asks.of_ok rfl run
  refine ⟨hr, hw, ⟨visits, hasks, hasks.bottomUp leads ⟨r, hentry⟩⟩, fun empty => ?_⟩
  have nothing : ∀ right : NodeId → NodeId → Prop, Remembered right replacements := by
    intro right n r' hr'
    cases (empty n).symm.trans hr'
  constructor
  · intro alone
    obtain ⟨-, ⟨-, -, unchanged⟩, hentry⟩ :=
      (rewrite_keeps hc (keeps_unchanged alone) wf he ⟨wf.grows, hs, rfl, nothing _⟩).of_ok rfl run
    exact ⟨unchanged.same e r hentry, unchanged.graph_eq⟩
  · intro step makes
    obtain ⟨-, ⟨-, -, trees⟩, hentry⟩ :=
      (rewrite_keeps hc (keeps_made wf makes) wf he ⟨wf.grows, hs, nothing _⟩).of_ok rfl run
    exact trees e r hentry

/-- The callback is asked once about a sum that two nodes share. Where one operand has an entry,
this is put in its place and nothing is asked about the operand. With an empty table the callback is
asked about every node, and the expression comes back. -/
theorem rewrite_asks_once_of_shared_sum :
    let g : Graph :=
      { nodes := #[⟨.constant ⟨3, 8⟩, 8⟩, ⟨.constant ⟨5, 8⟩, 8⟩, ⟨.binary .add 0 1, 8⟩, ⟨.not 2, 8⟩,
          ⟨.binary .mul 3 2, 8⟩]
        roots := #[] }
    let known : Replacements := (∅ : Replacements).insert 1 0
    let anything : Graph → List NodeId → Prop := fun _ _ => True
    g.WellFormed ∧ 4 < g.size ∧ Callback.recording.Sound anything (fun _ => False) ∧
      Sound anything ⟨g, known, []⟩ ∧
      (∃ (r : NodeId) (t : Pass (List NodeId)) (visits : List Visit),
        rewrite .recording 4 ⟨g, known, []⟩ = .ok r t ∧ t.graph.width r = 8 ∧
        g.BottomUp (fun n => ∃ r' : NodeId, known[n]? = some r') 4 (visits.map Visit.node) ∧
        visits.map Visit.asked = [0, 5, 6, 7]) ∧
      ∃ t : Pass (List NodeId), rewrite .recording 4 ⟨g, ∅, []⟩ = .ok 4 t ∧ t.graph = g ∧
        t.notes = [0, 1, 2, 3, 4] := by
  intro g known anything
  have wf : g.WellFormed := by decide +kernel
  have lt : 4 < g.size := by decide
  have recording : Callback.recording.Sound anything fun _ => False := Callback.recording_sound
  have fresh : Sound anything ⟨g, ∅, []⟩ := sound_start trivial
  have sound : Sound anything ⟨g, known, []⟩ :=
    fresh.insert (e := 1) (r := 0) (by decide) (by decide) rfl
  refine ⟨wf, lt, recording, sound, ?_, ?_⟩
  · have noted : (match rewrite .recording 4 (⟨g, known, []⟩ : Pass (List NodeId)) with
        | .ok _ t => some t.notes
        | .error _ _ => none) = some [0, 5, 6, 7] := by decide +kernel
    obtain ⟨r, t, run, -, hw, ⟨visits, asks, order⟩, -⟩ | ⟨_, _, run, -⟩ :=
      (rewrite_asks_once wf lt recording sound).outcome rfl
    · rw [run] at noted
      exact ⟨r, t, visits, run, hw, order, asks.asked_eq_notes.trans (Option.some.inj noted)⟩
    · rw [run] at noted
      cases noted
  · have noted : (match rewrite .recording 4 (⟨g, ∅, []⟩ : Pass (List NodeId)) with
        | .ok _ t => some t.notes
        | .error _ _ => none) = some [0, 1, 2, 3, 4] := by decide +kernel
    obtain ⟨r, t, run, -, -, -, empty⟩ | ⟨_, _, run, -⟩ :=
      (rewrite_asks_once wf lt recording fresh).outcome rfl
    · obtain ⟨rfl, unchanged⟩ := (empty (by simp)).1 Callback.recording_leavesAlone
      rw [run] at noted
      exact ⟨t, run, unchanged, Option.some.inj noted⟩
    · rw [run] at noted
      cases noted

end Pass

end BitvectorCode
