import BitvectorCode.Proofs.Rewrite.Passes
import BitvectorCode.Proofs.Rewrite.Reads

/-!
# What renaming does

Renaming makes a copy of what is below an expression. A read of a root with a new name becomes a
read of one new root, the same for all reads of the old one, and a node with nothing to rename below
it is its own copy. So every name is translated once, whatever other names the table holds.
-/

namespace BitvectorCode

open BitvectorCode.Graph

namespace Expr

def relabel (node : NodeId → NodeId) (root : RootId → RootId) : Expr → Expr
  | constant c => constant c
  | read r index => read (root r) (node index)
  | concat high low => concat (node high) (node low)
  | extract inner offset width => extract (node inner) offset width
  | zeroExtend inner => zeroExtend (node inner)
  | signExtend inner => signExtend (node inner)
  | not inner => not (node inner)
  | binary op lhs rhs => binary op (node lhs) (node rhs)
  | compare op lhs rhs => compare op (node lhs) (node rhs)
  | select cond ifTrue ifFalse => select (node cond) (node ifTrue) (node ifFalse)

variable {x y : Expr} {node node' : NodeId → NodeId} {root root' : RootId → RootId}

theorem relabel_congr (hn : ∀ child ∈ x.children, node child = node' child)
    (hr : ∀ r ∈ x.roots, root r = root' r) : x.relabel node root = x.relabel node' root' := by
  cases x <;> simp_all [relabel, children, roots]

theorem eq_relabel_of_withChildren? (h : x.withChildren? (x.children.map node) = some y)
    (hr : ∀ r ∈ x.roots, root r = r) : y = x.relabel node root := by
  cases x <;> simp_all [withChildren?, children, roots, relabel]

theorem unfold_relabel {g h : Graph} {width : Nat} {s t : NodeId → Tree} {f : Root → Root}
    (hc : ∀ child ∈ x.children, t (node child) = (s child).mapRoots f)
    (hr : ∀ r ∈ x.roots, h.root (root r) = f (g.root r)) :
    (x.relabel node root).unfold h width t = (x.unfold g width s).mapRoots f := by
  cases x <;> simp_all [relabel, children, roots, unfold, Tree.mapRoots, Tree.mapReads]

end Expr

namespace Graph

/-- What is below `e` in `g` stands in `h` again. The copy of a node `n` is `node n`, the copies of
its children are below it, and the roots it reads are `f` of the old ones. -/
structure Copies (f : Root → Root) (g h : Graph) (e : NodeId) (node : NodeId → NodeId)
    (root : RootId → RootId) : Prop where
  lt_size : ∀ n, g.Reaches e n → node n < h.size
  node_eq : ∀ n, g.Reaches e n → h.node (node n) = ⟨(g.expr n).relabel node root, g.width n⟩
  root_eq : ∀ n, g.Reaches e n → ∀ r ∈ (g.expr n).roots, h.root (root r) = f (g.root r)

variable {f : Root → Root} {g h : Graph} {e n : NodeId} {node : NodeId → NodeId}
    {root : RootId → RootId}

theorem Copies.tree_eq (hc : Copies f g h e node root) (wf : g.WellFormed) (wh : h.WellFormed)
    (he : e < g.size) (hn : g.Reaches e n) : h.tree (node n) = (g.tree n).mapRoots f := by
  induction n using Nat.strong_induction_on with
  | _ n ih =>
    rw [wh.tree_of_node (hc.lt_size n hn) (hc.node_eq n hn), wf.tree_eq (hn.lt_size wf he)]
    exact Expr.unfold_relabel
      (fun child hchild => ih child (wf.child_lt hchild) (Relation.ReflTransGen.tail hn hchild))
      (hc.root_eq n hn)

end Graph

def Root.translated (translations : Translations) (root : Root) : Root :=
  match translations[root.name]? with
  | some name => root.renamed name
  | none => root

theorem Root.translated_singleton (old new : String) (root : Root) :
    root.translated (.ofList [(old, new)]) =
      if root.name = old then root.renamed new else root := by
  unfold Root.translated
  rw [Std.TreeMap.ofList_singleton, Std.TreeMap.getElem?_insert]
  by_cases hname : root.name = old
  · simp [hname]
  · simp [hname, Ne.symm hname]

def Tree.Untranslated (translations : Translations) (t : Tree) : Prop :=
  ¬ t.AnyRead fun root _ => root.name ∈ translations

namespace Pass

def image {σ : Type} (s : Pass σ) (n : NodeId) : NodeId := s.replacements.getD n n

def newRoot (s : Pass NewRoots) (r : RootId) : RootId := s.notes.getD r r

variable {σ : Type} {s t : Pass σ}

theorem image_eq {n r : NodeId} (h : s.replacements[n]? = some r) : s.image n = r := by
  rw [image, Std.TreeMap.getD_eq_getD_getElem?, h, Option.getD_some]

theorem newRoot_eq {s : Pass NewRoots} {r new : RootId} (h : s.notes[r]? = some new) :
    s.newRoot r = new := by
  rw [newRoot, Std.TreeMap.getD_eq_getD_getElem?, h, Option.getD_some]

theorem newRoot_self {s : Pass NewRoots} {r : RootId} (h : s.notes[r]? = none) :
    s.newRoot r = r := by
  rw [newRoot, Std.TreeMap.getD_eq_getD_getElem?, h, Option.getD_none]

end Pass

namespace Renamer

variable {translations : Translations} {g₀ : Graph} {s t : Pass NewRoots} {e n r : NodeId}

/-- Only roots with a new name have a new root, and it has that name. -/
def NamesRoots (translations : Translations) (g₀ g : Graph) (newRoots : NewRoots) : Prop :=
  ∀ old new : RootId, newRoots[old]? = some new → (g₀.root old).name ∈ translations ∧
    g.root new = (g₀.root old).translated translations

/-- The entry `r` of a node `n` is its copy: it is over the entries of the children, it reads the
new root if there is to be one, and it is `n` itself if there is nothing to rename. -/
structure Copy (translations : Translations) (g₀ : Graph) (s : Pass NewRoots)
    (n r : NodeId) : Prop where
  children : ∀ child ∈ (g₀.expr n).children, ∃ r' : NodeId, s.replacements[child]? = some r'
  expr : s.graph.expr r = (g₀.expr n).relabel s.image s.newRoot
  noted : ∀ old ∈ (g₀.expr n).roots, (g₀.root old).name ∈ translations →
    ∃ new : RootId, s.notes[old]? = some new
  kept : (g₀.tree n).Untranslated translations → r = n

structure Copied (translations : Translations) (g₀ : Graph) (s : Pass NewRoots) : Prop where
  names : NamesRoots translations g₀ s.graph s.notes
  entries : Remembered (Copy translations g₀ s) s.replacements

theorem NamesRoots.mono {g h : Graph} {newRoots : NewRoots}
    (names : NamesRoots translations g₀ g newRoots) (gh : g.Grows h) (hn : g.HasRoots newRoots) :
    NamesRoots translations g₀ h newRoots := by
  intro old new hnew
  obtain ⟨hname, hroot⟩ := names old new hnew
  exact ⟨hname, (gh.isExtendedBy.root_eq (hn old new hnew)).trans hroot⟩

structure Later (s t : Pass NewRoots) : Prop where
  grows : s.graph.Grows t.graph
  replacements : ∀ n r : NodeId, s.replacements[n]? = some r → t.replacements[n]? = some r
  newRoots : ∀ old new : RootId, s.notes[old]? = some new → t.notes[old]? = some new

theorem Copy.later (hc : Copy translations g₀ s n r) (st : Later s t) (hr : r < s.graph.size)
    (hs : NamesRoots translations g₀ s.graph s.notes)
    (ht : NamesRoots translations g₀ t.graph t.notes) :
    Copy translations g₀ t n r := by
  have node : ∀ child ∈ (g₀.expr n).children, s.image child = t.image child := by
    intro child hchild
    obtain ⟨r', hr'⟩ := hc.children child hchild
    rw [Pass.image_eq hr', Pass.image_eq (st.replacements child r' hr')]
  have root : ∀ old ∈ (g₀.expr n).roots, s.newRoot old = t.newRoot old := by
    intro old hold
    by_cases hname : (g₀.root old).name ∈ translations
    · obtain ⟨new, hnew⟩ := hc.noted old hold hname
      rw [Pass.newRoot_eq hnew, Pass.newRoot_eq (st.newRoots old new hnew)]
    · have hs' : s.notes[old]? = none := Option.eq_none_iff_forall_ne_some.2 fun new hnew =>
        hname (hs old new hnew).1
      have ht' : t.notes[old]? = none := Option.eq_none_iff_forall_ne_some.2 fun new hnew =>
        hname (ht old new hnew).1
      rw [Pass.newRoot_self hs', Pass.newRoot_self ht']
  refine ⟨fun child hchild => ?_, ?_, fun old hold hname => ?_, hc.kept⟩
  · obtain ⟨r', hr'⟩ := hc.children child hchild
    exact ⟨r', st.replacements child r' hr'⟩
  · rw [st.grows.expr_eq hr, hc.expr, Expr.relabel_congr node root]
  · obtain ⟨new, hnew⟩ := hc.noted old hold hname
    exact ⟨new, st.newRoots old new hnew⟩

theorem newRoot_names {g : Graph} {newRoots : NewRoots} {old : RootId} {name : String}
    (wf : g.WellFormed) (hn : g.HasRoots newRoots) (names : NamesRoots translations g₀ g newRoots)
    (hold : g.root old = g₀.root old) (hname : translations[(g₀.root old).name]? = some name) :
    Ensures (· = ⟨g, newRoots⟩) (newRoot old name)
      (fun new t => NamesRoots translations g₀ t.graph t.notes ∧ t.notes[old]? = some new ∧
        ∀ old' new' : RootId, newRoots[old']? = some new' → t.notes[old']? = some new')
      fun _ _ => False := by
  apply Ensures.bind_get_self
  dsimp only
  cases hnew : newRoots[old]? with
  | some new => exact .pure fun _ h => h ▸ ⟨names, hnew, fun _ _ h => h⟩
  | none =>
    apply Ensures.bind_get_self
    rintro _ rfl
    have grown := wf.addRoot ((g.root old).renamed name)
    have hroot :
        ({ g with roots := g.roots.push ((g.root old).renamed name) } : Graph).root g.roots.size =
        (g₀.root old).translated translations := by
      simp only [Root.translated, hname]
      rw [← hold]
      simp [Graph.root, Array.getD_eq_getD_getElem?]
    have hmem : (g₀.root old).name ∈ translations :=
      Std.TreeMap.mem_iff_isSome_getElem?.2 (by rw [hname]; rfl)
    have entry : ∀ old' : RootId, (newRoots.insert old g.roots.size)[old']? =
        if old = old' then some g.roots.size else newRoots[old']? := by
      intro old'
      rw [Std.TreeMap.getElem?_insert]
      simp
    refine ⟨fun old' new' h => ?_, ?_, fun old' new' h => ?_⟩
    · change (newRoots.insert old g.roots.size)[old']? = some new' at h
      rw [entry] at h
      split at h
      · next heq =>
        cases h
        exact heq ▸ ⟨hmem, hroot⟩
      · exact names.mono grown hn old' new' h
    · exact (entry old).trans (if_pos rfl)
    · refine (entry old').trans ?_
      split
      · next heq => rw [← heq, hnew] at h; cases h
      · exact h

theorem callback_eq_none {g : Graph} {newRoots : NewRoots} {m : NodeId}
    (h : ∀ old ∈ (g.expr m).roots, (g.root old).name ∉ translations) :
    callback translations m ⟨g, newRoots⟩ = .ok none ⟨g, newRoots⟩ := by
  unfold callback
  rw [get_bind_apply]
  dsimp only
  cases hx : g.expr m with
  | read old index =>
    have hname : translations[(g.root old).name]? = none :=
      Std.TreeMap.getElem?_eq_none (h old (by simp [hx, Expr.roots]))
    simp only [hname]
    rfl
  | _ => rfl

theorem callback_read {g : Graph} {newRoots : NewRoots} {m index : NodeId} {old : RootId}
    (wf : g.WellFormed) (hn : g.HasRoots newRoots) (names : NamesRoots translations g₀ g newRoots)
    (hm : m < g.size) (hx : g.expr m = .read old index) (hold : g.root old = g₀.root old)
    (hname : (g₀.root old).name ∈ translations) :
    Ensures (· = ⟨g, newRoots⟩) (callback translations m)
      (fun new t => NamesRoots translations g₀ t.graph t.notes ∧
        (∀ old' new' : RootId, newRoots[old']? = some new' → t.notes[old']? = some new') ∧
        ∃ r newRoot : Nat, new = some r ∧ t.graph.expr r = .read newRoot index ∧
          t.notes[old]? = some newRoot)
      fun _ _ => False := by
  obtain ⟨name, hname⟩ := Option.isSome_iff_exists.1 (Std.TreeMap.mem_iff_isSome_getElem?.1 hname)
  have hi : index < g.size := wf.child_lt_size hm (by simp [hx, Expr.children])
  apply Ensures.bind_get_self
  simp only [hx, hold, hname]
  have first := (newRoot_ensures wf hn).and (newRoot_names wf hn names hold hname)
  apply Ensures.bind (first.weaken_fail fun _ _ h => h.1.elim)
  rintro newRoot t ⟨⟨grown, hroots, hnew⟩, hnames, hentry, hkept⟩
  have hread := CallbackState.build_read_ensures t.notes grown.wellFormed hnew (grown.lt_size hi)
  apply hread.sure.bind _ t rfl
  rintro r u ⟨more, hnotes, hr, hnode⟩
  have hexpr : u.graph.expr r = .read newRoot index := congrArg Node.expr hnode
  rw [← hnotes] at hnames hentry hkept hroots
  exact ⟨hnames.mono more hroots, hkept, r, newRoot, rfl, hexpr, hentry⟩

/-- The children a node is rebuilt over are what stands for its own, also after its own entry is
made. -/
theorem ids_eq_map_image {ids : List NodeId} {m : NodeId} (hm : Pass.Rebuilt g₀ s e ids m)
    (st : Later s t) : ids = (g₀.expr e).children.map t.image := by
  have each : List.Forall₂ (fun child r => t.image child = r) (g₀.expr e).children ids :=
    hm.children.imp fun child r hr => Pass.image_eq (st.replacements child r hr)
  have map := List.forall₂_map_left_iff.2 each
  rw [List.forall₂_eq_eq_eq] at map
  exact map.symm

theorem eq_self_of_untranslated {ids : List NodeId} {m : NodeId} (wf : g₀.WellFormed)
    (hs : Copied translations g₀ s) (hm : Pass.Rebuilt g₀ s e ids m)
    (h : (g₀.tree e).Untranslated translations) : m = e := by
  rw [wf.tree_eq hm.lt, Tree.Untranslated, Expr.anyRead_unfold, not_or] at h
  have entries : List.Forall₂ (fun child r => child ∈ (g₀.expr e).children ∧
      s.replacements[child]? = some r) (g₀.expr e).children ids :=
    (List.forall₂_and_left _ _).2 ⟨fun _ h => h, hm.children⟩
  have each : List.Forall₂ Eq (g₀.expr e).children ids :=
    entries.imp fun child r ⟨hchild, hr⟩ =>
      ((hs.entries child r hr).kept fun hread => h.2 ⟨child, hchild, hread⟩).symm
  rw [List.forall₂_eq_eq_eq] at each
  exact hm.same each.symm

theorem copy_of_rebuilt {ids : List NodeId} {m : NodeId} (wf : g₀.WellFormed)
    (hs : Copied translations g₀ s) (hm : Pass.Rebuilt g₀ s e ids m) (st : Later s t)
    (hread : ∀ old ∈ (g₀.expr e).roots, (g₀.root old).name ∉ translations)
    (names : NamesRoots translations g₀ t.graph t.notes) : Copy translations g₀ t e m := by
  refine ⟨fun child hchild => ?_, ?_, fun old hold hname => absurd hname (hread old hold),
    eq_self_of_untranslated wf hs hm⟩
  · obtain ⟨r', hr'⟩ := hm.exists_entry child hchild
    exact ⟨r', st.replacements child r' hr'⟩
  · have rebuilt := hm.expr
    rw [ids_eq_map_image hm st] at rebuilt
    rw [st.grows.expr_eq hm.lt_size]
    refine Expr.eq_relabel_of_withChildren? rebuilt fun old hold => Pass.newRoot_self ?_
    exact Option.eq_none_iff_forall_ne_some.2 fun new hnew => hread old hold (names old new hnew).1

theorem copy_of_read {ids : List NodeId} {m index index' : NodeId} {old newRoot : RootId}
    (wf : g₀.WellFormed) (hm : Pass.Rebuilt g₀ s e ids m) (st : Later s t)
    (hx : g₀.expr e = .read old index) (hmx : s.graph.expr m = .read old index')
    (hname : (g₀.root old).name ∈ translations) (hexpr : t.graph.expr r = .read newRoot index')
    (hentry : t.notes[old]? = some newRoot) : Copy translations g₀ t e r := by
  refine ⟨fun child hchild => ?_, ?_, fun old' hold' _ => ?_, fun h => ?_⟩
  · obtain ⟨r', hr'⟩ := hm.exists_entry child hchild
    exact ⟨r', st.replacements child r' hr'⟩
  · have rebuilt := hm.expr
    rw [ids_eq_map_image hm st, hx, hmx] at rebuilt
    cases rebuilt
    rw [hx]
    exact hexpr.trans (congrArg (Expr.read · _) (Pass.newRoot_eq hentry).symm)
  · rw [hx, Expr.roots, List.mem_singleton] at hold'
    exact ⟨newRoot, hold' ▸ hentry⟩
  · refine absurd ?_ h
    rw [wf.tree_eq hm.lt, hx]
    exact .inl hname

theorem Copied.insert {u : CallbackState NewRoots}
    (hs : Pass.Holds HasRoots g₀ (Copied translations g₀) s)
    (st : Later s ⟨u.graph, s.replacements.insert e r, u.notes⟩)
    (names : NamesRoots translations g₀ u.graph u.notes)
    (copy : Copy translations g₀ ⟨u.graph, s.replacements.insert e r, u.notes⟩ e r) :
    Copied translations g₀ ⟨u.graph, s.replacements.insert e r, u.notes⟩ := by
  refine ⟨names, Remembered.insert (fun n r' hr' => ?_) copy⟩
  exact (hs.inv.entries n r' hr').later st (hs.sound.replaced n r' hr').2.1 hs.inv.names names

theorem keeps_copied (wf : g₀.WellFormed) :
    Pass.Keeps HasRoots (callback translations) g₀ (Copied translations g₀) fun _ _ => False where
  grow := by
    intro s h e m ids hs gh _ _
    have names := hs.inv.names.mono gh hs.sound.notes
    refine ⟨names, hs.inv.entries.imp fun n r hr hc => ?_⟩
    exact hc.later ⟨gh, fun _ _ h => h, fun _ _ h => h⟩ (hs.sound.replaced n r hr).2.1
      hs.inv.names names
  up := fun _ _ _ _ h => h
  step := by
    intro s e ids m hs hm
    have hroots : (s.graph.expr m).roots = (g₀.expr e).roots := Expr.roots_of_withChildren? hm.expr
    have hold : ∀ old ∈ (g₀.expr e).roots, s.graph.root old = g₀.root old := fun old h =>
      hs.grows.isExtendedBy.root_eq (wf.root_lt hm.lt h)
    by_cases hread : ∃ old ∈ (g₀.expr e).roots, (g₀.root old).name ∈ translations
    · obtain ⟨old, hmem, hname⟩ := hread
      obtain ⟨index, hx⟩ := Expr.eq_read_of_mem_roots hmem
      obtain ⟨index', hmx⟩ := Expr.eq_read_of_mem_roots (hroots ▸ hmem)
      refine (callback_read hs.grows.wellFormed hs.sound.notes hs.inv.names hm.lt_size hmx
        (hold old hmem)
        hname).weaken (fun _ h => h) ?_ fun _ _ h => h
      rintro _ u ⟨names, hkept, r, newRoot, rfl, hexpr, hentry⟩ grown
      have st : Later s ⟨u.graph, s.replacements.insert e r, u.notes⟩ :=
        ⟨grown, Pass.kept_insert hm.fresh, hkept⟩
      exact Copied.insert hs st names (copy_of_read wf hm st hx hmx hname hexpr hentry)
    · have hread : ∀ old ∈ (g₀.expr e).roots, (g₀.root old).name ∉ translations :=
        fun old hmem hname => hread ⟨old, hmem, hname⟩
      have asked : callback translations m ⟨s.graph, s.notes⟩ = .ok none ⟨s.graph, s.notes⟩ :=
        callback_eq_none fun old hmem => by
          rw [hroots] at hmem
          exact hold old hmem ▸ hread old hmem
      rintro _ rfl
      rw [asked]
      intro grown
      have st : Later s ⟨s.graph, s.replacements.insert e m, s.notes⟩ :=
        ⟨grown, Pass.kept_insert hm.fresh, fun _ _ h => h⟩
      exact Copied.insert (u := ⟨s.graph, s.notes⟩) hs st hs.inv.names
        (copy_of_rebuilt wf hs.inv hm st hread hs.inv.names)

theorem Copied.exists_entry (ht : Copied translations g₀ t) (hr : t.replacements[e]? = some r)
    (hn : g₀.Reaches e n) : ∃ r' : NodeId, t.replacements[n]? = some r' := by
  refine hn.closed (p := fun n => ∃ r' : NodeId, t.replacements[n]? = some r') ⟨r, hr⟩ ?_
  rintro m ⟨r', hr'⟩ child hchild
  exact (ht.entries m r' hr').children child hchild

theorem Copied.newRoot_self (ht : Copied translations g₀ t) {old : RootId}
    (hname : (g₀.root old).name ∉ translations) : t.newRoot old = old :=
  Pass.newRoot_self
    (Option.eq_none_iff_forall_ne_some.2 fun new hnew => hname (ht.names old new hnew).1)

theorem copies_of_holds (wf : g₀.WellFormed) (he : e < g₀.size)
    (ht : Pass.Holds HasRoots g₀ (Copied translations g₀) t) (hr : t.replacements[e]? = some r) :
    g₀.Copies (Root.translated translations) t.graph e t.image t.newRoot := by
  refine ⟨fun n hn => ?_, fun n hn => ?_, fun n hn old hold => ?_⟩
  · obtain ⟨r', hr'⟩ := ht.inv.exists_entry hr hn
    rw [Pass.image_eq hr']
    exact (ht.sound.replaced n r' hr').2.1
  · obtain ⟨r', hr'⟩ := ht.inv.exists_entry hr hn
    have hw : t.graph.width r' = g₀.width n :=
      (ht.sound.replaced n r' hr').2.2.trans (ht.grows.width_eq (hn.lt_size wf he))
    rw [Pass.image_eq hr', ← (ht.inv.entries n r' hr').expr, ← hw]
    rfl
  · obtain ⟨r', hr'⟩ := ht.inv.exists_entry hr hn
    by_cases hname : (g₀.root old).name ∈ translations
    · obtain ⟨new, hnew⟩ := (ht.inv.entries n r' hr').noted old hold hname
      rw [Pass.newRoot_eq hnew, (ht.inv.names old new hnew).2]
    · rw [ht.inv.newRoot_self hname,
        ht.grows.isExtendedBy.root_eq (wf.root_lt (hn.lt_size wf he) hold), Root.translated,
        Std.TreeMap.getElem?_eq_none hname]

theorem holds_start (translations : Translations) {g : Graph} (wf : g.WellFormed) :
    Pass.Holds HasRoots g (Copied translations g) ⟨g, ∅, ∅⟩ := by
  refine ⟨wf.grows, Pass.sound_start hasRoots_empty, fun old new h => ?_, remembered_empty⟩
  simp at h

theorem rewrite_copies (translations : Translations) {g : Graph} (wf : g.WellFormed)
    (he : e < g.size) :
    Ensures (· = ⟨g, ∅, ∅⟩) (Pass.rewrite (callback translations) e)
      (fun r t => g.Grows t.graph ∧ t.image e = r ∧
        g.Copies (Root.translated translations) t.graph e t.image t.newRoot ∧
        (∀ n, g.Reaches e n → (g.tree n).Untranslated translations → t.image n = n) ∧
        ∀ old, (g.root old).name ∉ translations → t.newRoot old = old)
      fun _ _ => False := by
  refine (Pass.rewrite_keeps (callback_sound translations) (keeps_copied wf) wf he
    (holds_start translations wf)).weaken (fun _ h => h) ?_ fun _ _ h => h
  rintro r t ⟨-, ht, hr⟩
  refine ⟨ht.grows, Pass.image_eq hr, copies_of_holds wf he ht hr, fun n hn h => ?_,
    fun old hname => ht.inv.newRoot_self hname⟩
  obtain ⟨r', hr'⟩ := ht.inv.exists_entry hr hn
  rw [Pass.image_eq hr', (ht.inv.entries n r' hr').kept h]

end Renamer

namespace Renaming

variable {g : Graph} {e : NodeId}

theorem rename_copies (wf : g.WellFormed) (he : e < g.size) (renamer : Renamer) :
    ∃ r t, rename e ⟨g, renamer⟩ = .ok r t ∧ g.Grows t.graph ∧
      t.renamer.translations = renamer.translations ∧ ∃ node root, node e = r ∧
        g.Copies (Root.translated renamer.translations) t.graph e node root ∧
        (∀ n, g.Reaches e n → (g.tree n).Untranslated renamer.translations → node n = n) ∧
        ∀ old, (g.root old).name ∉ renamer.translations → root old = old := by
  obtain ⟨translations, replacements, newRoots⟩ := renamer
  obtain ⟨r, t, h, grown, copied⟩ | ⟨_, _, _, impossible⟩ :=
    (Renamer.rewrite_copies translations wf he).outcome rfl
  · have run : rename e ⟨g, translations, replacements, newRoots⟩ =
        resume e ⟨g, translations, ∅, ∅⟩ := rfl
    refine ⟨r, ⟨t.graph, translations, t.replacements, t.notes⟩, ?_, grown, rfl, _, _, copied⟩
    rw [run]
    simp only [resume, h]
  · exact impossible.elim

/-- A renaming gives the tree with the roots replaced, whatever the renamer was used for before. -/
theorem rename_tree (wf : g.WellFormed) (he : e < g.size) (renamer : Renamer) :
    ∃ r t, rename e ⟨g, renamer⟩ = .ok r t ∧ g.Grows t.graph ∧ r < t.graph.size ∧
      t.graph.tree r = (g.tree e).mapRoots (Root.translated renamer.translations) := by
  obtain ⟨_, t, run, grown, -, node, root, rfl, copies, -⟩ := rename_copies wf he renamer
  exact ⟨_, t, run, grown, copies.lt_size e (.refl e),
    copies.tree_eq wf grown.wellFormed he (.refl e)⟩

/-- Renaming substitutes names, all at once and each one once, whatever the renamer was used for
before. In the tree a root keeps its size and contents, and nothing but names changes. In the graph
what is below the expression is copied, every root to one root, and a node with nothing to rename
below it stays where it is, as does a root without a new name. -/
theorem rename_substitutes (wf : g.WellFormed) (he : e < g.size) (renamer : Renamer) :
    ∃ r t, rename e ⟨g, renamer⟩ = .ok r t ∧ g.Grows t.graph ∧
      t.renamer.translations = renamer.translations ∧
      t.graph.tree r = (g.tree e).mapRoots (Root.translated renamer.translations) ∧
      ∃ node root, node e = r ∧
        g.Copies (Root.translated renamer.translations) t.graph e node root ∧
        (∀ n, g.Reaches e n → (g.tree n).Untranslated renamer.translations → node n = n) ∧
        ∀ old, (g.root old).name ∉ renamer.translations → root old = old := by
  obtain ⟨r, t, h, grown, hkept, node, root, rfl, copies, untouched⟩ := rename_copies wf he renamer
  have tree := copies.tree_eq wf grown.wellFormed he (.refl e)
  exact ⟨_, t, h, grown, hkept, tree, node, root, rfl, copies, untouched⟩

/-- Two names are exchanged, also where one root is read at a byte of the other, by a renamer with a
table of replacements that means nothing here. A sum that reads neither root stays where it is. -/
theorem rename_exchanges :
    let g : Graph := {
      nodes := #[⟨.constant ⟨3, 8⟩, 8⟩, ⟨.read 0 0, 8⟩, ⟨.read 1 1, 8⟩, ⟨.read 2 0, 8⟩,
        ⟨.binary .add 3 0, 8⟩, ⟨.concat 2 4, 16⟩]
      roots := #[.symbolic "a" 8, .known "b" [1, 2], .symbolic "c" 8] }
    let renamer : Renamer :=
      { translations := .ofList [("a", "b"), ("b", "a")]
        replacements := .ofList [(5, 0), (1, 4)] }
    g.WellFormed ∧ 5 < g.size ∧ ∃ r t, rename 5 ⟨g, renamer⟩ = .ok r t ∧
      t.graph.tree r = .concat
        (.read (.known "a" [1, 2]) (.read (.symbolic "b" 8) (.constant ⟨3, 8⟩)))
        (.binary .add (.read (.symbolic "c" 8) (.constant ⟨3, 8⟩)) (.constant ⟨3, 8⟩)) ∧
      ∃ high, t.graph.expr r = .concat high 4 := by
  intro g renamer
  have wf : g.WellFormed := by decide +kernel
  have he : 5 < g.size := by decide
  have sum : g.tree 4 =
      .binary .add (.read (.symbolic "c" 8) (.constant ⟨3, 8⟩)) (.constant ⟨3, 8⟩) := by
        decide +kernel
  have hc : "c" ∉ renamer.translations := by decide +kernel
  obtain ⟨_, t, h, -, -, tree, node, root, rfl, copies, kept, -⟩ := rename_substitutes wf he renamer
  have stays : node 4 = 4 := by
    refine kept 4 (.of_child (by decide) (.refl 4)) ?_
    rw [sum]
    simpa [Tree.Untranslated, Tree.AnyRead, Root.symbolic] using hc
  have expr : t.graph.expr (node 5) = .concat (node 2) (node 4) :=
    congrArg Node.expr (copies.node_eq 5 (.refl 5))
  refine ⟨wf, he, _, t, h, tree.trans ?_, node 2, stays ▸ expr⟩
  decide +kernel

end Renaming

theorem Build.rename_tree {g : Graph} {e : NodeId} (translations : Translations) (wf : g.WellFormed)
    (he : e < g.size) : ∃ r h, rename translations e g = .ok r h ∧ g.Grows h ∧ r < h.size ∧
      h.tree r = (g.tree e).mapRoots (Root.translated translations) := by
  obtain ⟨r, t, run, grown, hr, tree⟩ := Renaming.rename_tree wf he (.ofTranslations translations)
  exact ⟨r, t.graph, by simp only [rename, run], grown, hr, tree⟩

end BitvectorCode
