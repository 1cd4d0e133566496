import BitvectorCode.Proofs.Graph.Reachability
import BitvectorCode.Proofs.Rewrite.Pass

/-!
# The table of a pass

A pass leaves a table of what stands for each node it met. An invariant of the graph, the table and
the notes holds after the pass if it is kept whenever one node gets its entry, after all of its
children have theirs. Nothing but the nodes below an expression gets an entry when it is rewritten,
of these only the ones that are reached around the nodes with entries, and no entry is ever changed.
-/

namespace BitvectorCode

open BitvectorCode.Graph

namespace Pass

variable {σ : Type} {notesOk : Graph → σ → Prop} {fails : Error → Prop} {callback : Callback σ}
variable {g₀ : Graph} {s t u : Pass σ}

abbrev HasEntry (s : Pass σ) (n : NodeId) : Prop := ∃ r : NodeId, s.replacements[n]? = some r

theorem kept_insert {replacements : Replacements} {e r : NodeId} (fresh : replacements[e]? = none) :
    ∀ n r' : NodeId, replacements[n]? = some r' → (replacements.insert e r)[n]? = some r' := by
  intro n r' h
  rw [Std.TreeMap.getElem?_insert]
  split
  · next heq =>
    rw [← Std.compare_eq_iff_eq.1 heq, fresh] at h
    cases h
  · exact h

theorem exists_insert_iff {replacements : Replacements} {e r n : NodeId} :
    (∃ r' : NodeId, (replacements.insert e r)[n]? = some r') ↔
      n = e ∨ ∃ r' : NodeId, replacements[n]? = some r' := by
  rw [Std.TreeMap.getElem?_insert]
  by_cases hn : n = e
  · simp [hn]
  · simp [hn, Ne.symm hn]

/-- From `s` to `t` the graph grows, entries are kept, and new ones are of the nodes in `below`
only. -/
structure Leads (below : NodeId → Prop) (s t : Pass σ) : Prop where
  grows : s.graph.Grows t.graph
  kept : ∀ n r : NodeId, s.replacements[n]? = some r → t.replacements[n]? = some r
  added : ∀ n r : NodeId, t.replacements[n]? = some r → s.replacements[n]? = some r ∨ below n

theorem Leads.refl {below : NodeId → Prop} (wf : s.graph.WellFormed) : Leads below s s :=
  ⟨wf.grows, fun _ _ h => h, fun _ _ h => .inl h⟩

theorem Leads.trans {below below' : NodeId → Prop} (st : Leads below s t) (tu : Leads below' t u) :
    Leads (fun n => below n ∨ below' n) s u := by
  refine ⟨st.grows.trans tu.grows, fun n r h => tu.kept n r (st.kept n r h), fun n r h => ?_⟩
  obtain h | h := tu.added n r h
  · exact (st.added n r h).imp_right .inl
  · exact .inr (.inr h)

theorem Leads.weaken {below below' : NodeId → Prop} (h : Leads below s t)
    (hb : ∀ n, below n → below' n) : Leads below' s t :=
  ⟨h.grows, h.kept, fun n r hr => (h.added n r hr).imp_right (hb n)⟩

theorem Leads.hasEntry {below : NodeId → Prop} (h : Leads below s t) {n : NodeId}
    (hn : s.HasEntry n) :
    t.HasEntry n :=
  hn.imp fun r hr => h.kept n r hr

/-- An invariant holds in a pass over a graph that has grown from `g₀`. -/
structure Holds (notesOk : Graph → σ → Prop) (g₀ : Graph) (inv : Pass σ → Prop) (s : Pass σ) :
    Prop where
  grows : g₀.Grows s.graph
  sound : s.Sound notesOk
  inv : inv s

/-- The children of `e` have the entries `ids`, `e` has none yet, and `m` is `e` over `ids`, which
is `e` itself or a node that `g₀` does not have. -/
structure Rebuilt (g₀ : Graph) (s : Pass σ) (e : NodeId) (ids : List NodeId)
    (m : NodeId) : Prop where
  lt : e < g₀.size
  fresh : s.replacements[e]? = none
  children : List.Forall₂ (fun child r => s.replacements[child]? = some r) (g₀.expr e).children ids
  lt_size : m < s.graph.size
  expr : (g₀.expr e).withChildren? ids = some (s.graph.expr m)
  width : s.graph.width m = g₀.width e
  same : ids = (g₀.expr e).children → m = e
  new : m = e ∨ g₀.size ≤ m

theorem Rebuilt.not_hasEntry {e m : NodeId} {ids : List NodeId} (hm : Rebuilt g₀ s e ids m) :
    ¬ s.HasEntry e := by
  rintro ⟨r, hr⟩
  cases hr.symm.trans hm.fresh

theorem Rebuilt.exists_entry {e m : NodeId} {ids : List NodeId} (hm : Rebuilt g₀ s e ids m) :
    ∀ child ∈ (g₀.expr e).children, s.HasEntry child :=
  ((List.forall₂_and_left _ _).1 (hm.children.imp fun _ r h => ⟨⟨r, h⟩, trivial⟩)).1

/-- A callback keeps an invariant of the passes over graphs that have grown from `g₀`: the graph may
grow when a node is rebuilt over entries of its children, and the callback may answer about the
rebuilt node, whose entry is then made. A failure of `e` is one of the callback at `e` or, after all
children before it, one of a child. -/
structure Keeps (notesOk : Graph → σ → Prop) (callback : Callback σ) (g₀ : Graph)
    (inv : Pass σ → Prop) (failsAt : NodeId → Error → Prop) : Prop where
  grow : ∀ {s : Pass σ} {h : Graph} {e m : NodeId} {ids : List NodeId}, Holds notesOk g₀ inv s →
    s.graph.Grows h →
    List.Forall₂ (fun child r => s.replacements[child]? = some r) (g₀.expr e).children ids →
    rebuild e ids s = .ok m { s with graph := h } → inv { s with graph := h }
  step : ∀ {s : Pass σ} {e : NodeId} {ids : List NodeId} {m : NodeId}, Holds notesOk g₀ inv s →
    Rebuilt g₀ s e ids m → Ensures (· = ⟨s.graph, s.notes⟩) (callback m)
      (fun new t => s.graph.Grows t.graph →
        inv ⟨t.graph, s.replacements.insert e (new.getD m), t.notes⟩)
      fun err _ => failsAt e err
  up : ∀ {s : Pass σ} {e : NodeId} {before after : List NodeId} {child : NodeId} {err : Error},
    Holds notesOk g₀ inv s → e < g₀.size → (g₀.expr e).children = before ++ child :: after →
    (∀ b ∈ before, ∃ r, s.replacements[b]? = some r) → failsAt child err → failsAt e err

theorem Holds.imp {inv inv' : Pass σ → Prop} (h : Holds notesOk g₀ inv s) (hinv : inv s → inv' s) :
    Holds notesOk g₀ inv' s :=
  ⟨h.grows, h.sound, hinv h.inv⟩

theorem Keeps.and {inv inv' : Pass σ → Prop} {failsAt failsAt' : NodeId → Error → Prop}
    (k : Keeps notesOk callback g₀ inv failsAt) (k' : Keeps notesOk callback g₀ inv' failsAt') :
    Keeps notesOk callback g₀ (fun s => inv s ∧ inv' s)
      fun e err => failsAt e err ∧ failsAt' e err where
  grow := fun hs gh hids hrun =>
    ⟨k.grow (hs.imp And.left) gh hids hrun, k'.grow (hs.imp And.right) gh hids hrun⟩
  step := fun hs hm => ((k.step (hs.imp And.left) hm).and (k'.step (hs.imp And.right) hm)).weaken
    (fun _ h => h) (fun _ _ h grown => ⟨h.1 grown, h.2 grown⟩) fun _ _ h => h
  up := fun hs he hsplit hbefore h =>
    ⟨k.up (hs.imp And.left) he hsplit hbefore h.1, k'.up (hs.imp And.right) he hsplit hbefore h.2⟩

theorem mapM_keeps {inv : Pass σ → Prop} {failsAt : NodeId → Error → Prop} {es : List NodeId}
    {f : NodeId → EStateM Error (Pass σ) NodeId}
    (hf : ∀ e ∈ es, ∀ s, Holds notesOk g₀ inv s → Ensures (· = s) (f e)
      (fun r t => Leads (g₀.ReachesAround s.HasEntry e) s t ∧ Holds notesOk g₀ inv t ∧
        t.replacements[e]? = some r)
      fun err _ => failsAt e err)
    (hs : Holds notesOk g₀ inv s) :
    Ensures (· = s) (es.mapM f)
      (fun rs t => Leads (fun n => ∃ e ∈ es, g₀.ReachesAround s.HasEntry e n) s t ∧
        Holds notesOk g₀ inv t ∧ List.Forall₂ (fun e r => t.replacements[e]? = some r) es rs)
      fun err _ => ∃ t before child after, es = before ++ child :: after ∧ Holds notesOk g₀ inv t ∧
        (∀ n r : NodeId, s.replacements[n]? = some r → t.replacements[n]? = some r) ∧
        (∀ b ∈ before, ∃ r, t.replacements[b]? = some r) ∧ failsAt child err := by
  induction es generalizing s with
  | nil =>
    rintro t rfl
    exact ⟨.refl hs.grows.wellFormed, hs, .nil⟩
  | cons e es ih =>
    rw [List.mapM_cons]
    refine Ensures.bind ((hf e List.mem_cons_self s hs).weaken_fail fun err _ h => ?_) fun r => ?_
    · exact ⟨s, [], e, es, rfl, hs, fun _ _ h => h, by simp, h⟩
    rintro t ⟨leads, ht, hr⟩
    have rest := ih (fun e' he' => hf e' (List.mem_cons_of_mem e he')) ht
    refine Ensures.bind (rest.weaken_fail fun err _ h => ?_) (fun rs => ?_) t rfl
    · obtain ⟨u, before, child, after, rfl, hu, kept, hbefore, h⟩ := h
      refine ⟨u, e :: before, child, after, rfl, hu,
        fun n r h => kept n r (leads.kept n r h), ?_, h⟩
      exact List.forall_mem_cons.2 ⟨⟨r, kept e r hr⟩, hbefore⟩
    · rintro u ⟨more, hu, hrs⟩
      refine ⟨(leads.trans more).weaken ?_, hu, .cons (more.kept e r hr) hrs⟩
      rintro n (hn | ⟨e', he', hn⟩)
      · exact ⟨e, List.mem_cons_self, hn⟩
      · exact ⟨e', List.mem_cons_of_mem e he', hn.mono fun _ => leads.hasEntry⟩

theorem Holds.standFor {inv : Pass σ → Prop} {e : NodeId} {ids : List NodeId}
    (hs : Holds notesOk g₀ inv s) (he : e < g₀.size)
    (hids : List.Forall₂ (fun child r => s.replacements[child]? = some r)
      (g₀.expr e).children ids) :
    StandFor s.graph (s.graph.expr e).children ids := by
  rw [hs.grows.expr_eq he]
  exact hids.imp fun child r hr => (hs.sound.replaced child r hr).2

theorem rebuild_holds {inv : Pass σ → Prop} {failsAt : NodeId → Error → Prop}
    (hc : callback.Sound notesOk fails) (k : Keeps notesOk callback g₀ inv failsAt)
    {e : NodeId} {ids : List NodeId} (hs : Holds notesOk g₀ inv s) (he : e < g₀.size)
    (fresh : s.replacements[e]? = none)
    (hids : List.Forall₂ (fun child r => s.replacements[child]? = some r)
      (g₀.expr e).children ids) :
    ∃ m h, rebuild e ids s = .ok m { s with graph := h } ∧
      Holds notesOk g₀ inv { s with graph := h } ∧ Rebuilt g₀ { s with graph := h } e ids m := by
  obtain ⟨g, replacements, notes⟩ := s
  obtain ⟨m, h, expr, hrun, step, hm, hexpr, hnode, hsame, hnew⟩ :=
    rebuild_eq replacements notes hs.grows.wellFormed (hs.grows.lt_size he) (hs.standFor he hids)
  have hx : g.expr e = g₀.expr e := hs.grows.expr_eq he
  have hw : g.width e = g₀.width e := hs.grows.width_eq he
  have hmx : h.expr m = expr := by simp [Graph.expr, hnode]
  have hmw : h.width m = g.width e := by simp [Graph.width, hnode]
  refine ⟨m, h, hrun, ⟨hs.grows.trans step, hs.sound.grow step (hc.mono step hs.sound.notes),
    k.grow hs step hids hrun⟩, he, fresh, hids, hm, ?_, hmw.trans hw, fun hown => ?_, ?_⟩
  · rw [hmx, ← hx]
    exact hexpr
  · exact (hsame (hown.trans (congrArg Expr.children hx.symm))).1
  · exact hnew.imp_right fun hm => Nat.le_trans hs.grows.size_le (Nat.le_of_eq hm.symm)

theorem finish_entry {inv : Pass σ → Prop} {failsAt : NodeId → Error → Prop}
    (hc : callback.Sound notesOk fails) (k : Keeps notesOk callback g₀ inv failsAt)
    {e : NodeId} {ids : List NodeId} (hs : Holds notesOk g₀ inv s) (he : e < g₀.size)
    (fresh : s.replacements[e]? = none)
    (hids : List.Forall₂ (fun child r => s.replacements[child]? = some r)
      (g₀.expr e).children ids) :
    Ensures (· = s) (finish callback e ids)
      (fun r t => inv t ∧ t.replacements = s.replacements.insert e r)
      fun err _ => failsAt e err := by
  obtain ⟨m, h, hrun, hs', rebuilt⟩ := rebuild_holds hc k hs he fresh hids
  have first : Ensures (· = s) (rebuild e ids) (fun r t => r = m ∧ t = { s with graph := h })
      fun err _ => failsAt e err := by
    rintro _ rfl
    rw [hrun]
    exact ⟨rfl, rfl⟩
  apply first.bind
  rintro r _ ⟨rfl, rfl⟩
  have asked :=
    (hc.ensures hs'.grows.wellFormed hs'.sound.notes rebuilt.lt_size).and (k.step hs' rebuilt)
  have called : Ensures (· = { s with graph := h }) (call callback r)
      (fun new t => inv ⟨t.graph, s.replacements.insert e (new.getD r), t.notes⟩ ∧
        t.replacements = s.replacements) fun err _ => failsAt e err := by
    rintro _ rfl
    obtain ⟨new, t, hx, ⟨grown, -⟩, hinv⟩ | ⟨err, t, hx, -, herr⟩ := asked.outcome rfl
    · simp only [call, hx]
      exact ⟨hinv grown, trivial⟩
    · simp only [call, hx]
      exact herr
  refine called.bind (fun new => ?_) _ rfl
  rintro ⟨k, _, notes'⟩ ⟨hinv, rfl⟩
  exact ⟨hinv, rfl⟩

theorem finish_keeps {inv : Pass σ → Prop} {failsAt : NodeId → Error → Prop}
    (hc : callback.Sound notesOk fails) (k : Keeps notesOk callback g₀ inv failsAt)
    {e : NodeId} {ids : List NodeId} (hs : Holds notesOk g₀ inv s) (he : e < g₀.size)
    (fresh : s.replacements[e]? = none)
    (hids : List.Forall₂ (fun child r => s.replacements[child]? = some r)
      (g₀.expr e).children ids) :
    Ensures (· = s) (finish callback e ids)
      (fun r t => Leads (· = e) s t ∧ Holds notesOk g₀ inv t ∧ t.replacements[e]? = some r)
      fun err _ => failsAt e err := by
  have sound :=
    finish_rewrites hc hs.grows.wellFormed hs.sound (hs.grows.lt_size he) (hs.standFor he hids)
  refine (sound.and (finish_entry hc k hs he fresh hids)).weaken (fun _ h => h) ?_ fun _ _ h => h.2
  rintro r t ⟨⟨grown, ht, -⟩, hinv, hentry⟩
  refine ⟨⟨grown, fun n r' h => ?_, fun n r' h => ?_⟩, ⟨hs.grows.trans grown, ht, hinv⟩, ?_⟩
  · rw [hentry]
    exact kept_insert fresh n r' h
  · rw [hentry, Std.TreeMap.getElem?_insert] at h
    split at h
    · next heq => exact .inr (Std.compare_eq_iff_eq.1 heq).symm
    · exact .inl h
  · rw [hentry]
    simp

theorem rewriteWithin_keeps {inv : Pass σ → Prop} {failsAt : NodeId → Error → Prop}
    (hc : callback.Sound notesOk fails) (k : Keeps notesOk callback g₀ inv failsAt)
    (wf : g₀.WellFormed) {depth : Nat} {e : NodeId} (hd : e < depth) (he : e < g₀.size)
    (hs : Holds notesOk g₀ inv s) :
    Ensures (· = s) (rewriteWithin callback depth e)
      (fun r t => Leads (g₀.ReachesAround s.HasEntry e) s t ∧ Holds notesOk g₀ inv t ∧
        t.replacements[e]? = some r)
      fun err _ => failsAt e err := by
  induction depth generalizing e s with
  | zero => exact absurd hd (Nat.not_lt_zero e)
  | succ depth ih =>
    apply Ensures.bind_get_self
    cases hr : s.replacements[e]? with
    | some r =>
      rintro t rfl
      exact ⟨.refl hs.grows.wellFormed, hs, hr⟩
    | none =>
      have stops : ¬ s.HasEntry e := fun ⟨r, h⟩ => absurd (hr.symm.trans h) nofun
      apply Ensures.bind_get_self
      rw [hs.grows.expr_eq he]
      have below : ∀ child ∈ (g₀.expr e).children, child < e :=
        fun child hchild => wf.child_lt hchild
      have each : ∀ child ∈ (g₀.expr e).children, ∀ u, Holds notesOk g₀ inv u →
          Ensures (· = u) (rewriteWithin callback depth child)
            (fun r t => Leads (g₀.ReachesAround u.HasEntry child) u t ∧ Holds notesOk g₀ inv t ∧
              t.replacements[child]? = some r)
            fun err _ => failsAt child err := fun child hchild u hu =>
        ih (by have := below child hchild; lia) (wf.child_lt_size he hchild) hu
      have first := mapM_keeps each hs
      refine Ensures.bind (first.weaken_fail fun err _ h => ?_) fun ids => ?_
      · obtain ⟨t, before, child, after, hsplit, ht, -, hbefore, h⟩ := h
        exact k.up ht he hsplit hbefore h
      · rintro t ⟨leads, ht, hids⟩
        have fresh : t.replacements[e]? = none := by
          cases he' : t.replacements[e]? with
          | none => rfl
          | some r =>
            obtain h | ⟨child, hchild, hreach⟩ := leads.added e r he'
            · exact absurd ⟨r, h⟩ stops
            · exact absurd (below child hchild) (Nat.not_lt.2 (hreach.reaches.le wf))
        have last := finish_keeps hc k ht he fresh hids
        refine last.weaken (fun _ h => h) ?_ (fun _ _ h => h) t rfl
        rintro r u ⟨more, hu, hr⟩
        refine ⟨(leads.trans more).weaken ?_, hu, hr⟩
        rintro n (⟨child, hchild, hn⟩ | rfl)
        · exact .of_child stops hchild hn
        · exact .refl stops

theorem rewrite_keeps {inv : Pass σ → Prop} {failsAt : NodeId → Error → Prop}
    (hc : callback.Sound notesOk fails) (k : Keeps notesOk callback g₀ inv failsAt)
    (wf : g₀.WellFormed) {e : NodeId} (he : e < g₀.size) (hs : Holds notesOk g₀ inv s) :
    Ensures (· = s) (rewrite callback e)
      (fun r t => Leads (g₀.ReachesAround s.HasEntry e) s t ∧ Holds notesOk g₀ inv t ∧
        t.replacements[e]? = some r)
      fun err _ => failsAt e err :=
  Ensures.bind_get_self
    (rewriteWithin_keeps hc k wf (Nat.lt_add_left _ (hs.grows.lt_size he)) he hs)

def Closed (g₀ : Graph) (s : Pass σ) : Prop :=
  Remembered (fun n _ => ∀ child ∈ (g₀.expr n).children,
    ∃ r : NodeId, s.replacements[child]? = some r)
    s.replacements

theorem keeps_closed (hc : callback.Sound notesOk fails) :
    Keeps notesOk callback g₀ (Closed g₀) fun _ _ => True where
  grow := fun hs _ _ _ => hs.inv
  up := fun _ _ _ _ _ => trivial
  step := by
    intro s e ids m hs hm
    have answered := hc.ensures hs.grows.wellFormed hs.sound.notes hm.lt_size
    refine answered.weaken (fun _ h => h) (fun new t _ _ => ?_) fun _ _ _ => trivial
    have more : ∀ n : NodeId, (∃ r : NodeId, s.replacements[n]? = some r) →
        ∃ r : NodeId, (s.replacements.insert e (new.getD m))[n]? = some r :=
      fun n hn => exists_insert_iff.2 (.inr hn)
    have old : Remembered (fun n _ => ∀ child ∈ (g₀.expr n).children, ∃ r : NodeId,
        (s.replacements.insert e (new.getD m))[child]? = some r) s.replacements :=
      hs.inv.imp fun n r _ h child hchild => more child (h child hchild)
    exact old.insert fun child hchild => more child (hm.exists_entry child hchild)

/-- A pass that starts with an empty table makes entries of the reachable nodes, and of no
others. -/
theorem rewrite_entries (hc : callback.Sound notesOk fails) (wf : g₀.WellFormed) {e : NodeId}
    (he : e < g₀.size) (notes : σ) (hn : notesOk g₀ notes) :
    Ensures (· = ⟨g₀, ∅, notes⟩) (rewrite callback e)
      (fun _ t => ∀ n : NodeId, (∃ r : NodeId, t.replacements[n]? = some r) ↔ g₀.Reaches e n)
      fun _ _ => True := by
  have start : Holds notesOk g₀ (Closed g₀) ⟨g₀, ∅, notes⟩ :=
    ⟨wf.grows, sound_start hn, remembered_empty⟩
  refine (rewrite_keeps hc (keeps_closed hc) wf he start).weaken (fun _ h => h) ?_ fun _ _ h => h
  rintro r t ⟨leads, ht, hr⟩ n
  constructor
  · rintro ⟨r', hr'⟩
    refine ((leads.added n r' hr').resolve_left fun h => ?_).reaches
    simp at h
  · intro hn
    exact hn.closed (p := fun n => ∃ r : NodeId, t.replacements[n]? = some r) ⟨r, hr⟩
      fun m hm child hchild => hm.elim fun r' hr' => ht.inv m r' hr' child hchild

end Pass

end BitvectorCode
