import BitvectorCode.Proofs.Graph.Structure
import BitvectorCode.Proofs.Rewrite.Rename

/-!
# Renaming constraint sets

While the constraints of one set are renamed, the table of replacements and the new roots are kept,
so a set is copied as a whole, with what its constraints share. Before the next set they are
forgotten. What is added for one set lies between the sizes of the graph before and after it, and
this tells the sets apart.
-/

namespace BitvectorCode

open BitvectorCode.Graph

namespace ConstraintSet

/-- A set to which constraints were added one by one while the graph grew to `g`. -/
inductive Built (g : Graph) : ConstraintSet → Prop
  | empty : Built g {}
  | add {set set' : ConstraintSet} {h : Graph} {e : NodeId} :
    Built g set → h.IsExtendedBy g → set.add h e = .ok set' → Built g set'

def Reaches (set : ConstraintSet) (g : Graph) (n : NodeId) : Prop :=
    ∃ e ∈ set.constraints, g.Reaches e n

def Reads (set : ConstraintSet) (g : Graph) (root : RootId) : Prop :=
  ∃ n, set.Reaches g n ∧ root ∈ (g.expr n).roots

variable {g : Graph} {set set' : ConstraintSet} {e : NodeId}

theorem add_eq_ok_iff :
    set.add g e = .ok set' ↔ g.width e = 1 ∧ set' = ⟨set.constraints ++ [e]⟩ := by
  unfold add
  split <;> simp_all [eq_comm]

theorem Built.width_eq (h : set.Built g) : ∀ e ∈ set.constraints, e < g.size ∧ g.width e = 1 := by
  induction h with
  | empty => simp
  | @add set set' h e _ gh hadd ih =>
    obtain ⟨hw, rfl⟩ := add_eq_ok_iff.1 hadd
    have he : e < h.size := by
      by_contra hlt
      have hn : h.nodes[e]? = none := Array.getElem?_eq_none (Nat.not_lt.1 hlt)
      simp [width, node, Array.getD_eq_getD_getElem?, hn, default, instInhabitedNode.default] at hw
    intro e' he'
    obtain he' | rfl := by simpa using he'
    · exact ih e' he'
    · exact ⟨gh.lt_size he, (gh.width_eq he).trans hw⟩

end ConstraintSet

namespace Expr

variable {x : Expr} {node : NodeId → NodeId} {root : RootId → RootId}

theorem children_relabel : (x.relabel node root).children = x.children.map node := by
  cases x <;> rfl

theorem roots_relabel : (x.relabel node root).roots = x.roots.map root := by
  cases x <;> rfl

end Expr

namespace Graph.Copies

variable {f : Root → Root} {g h k : Graph} {e n m : NodeId} {node : NodeId → NodeId}
variable {root : RootId → RootId}

theorem expr_eq (hc : g.Copies f h e node root) (hn : g.Reaches e n) :
    h.expr (node n) = (g.expr n).relabel node root :=
  congrArg Node.expr (hc.node_eq n hn)

theorem width_eq (hc : g.Copies f h e node root) (hn : g.Reaches e n) :
    h.width (node n) = g.width n := by
  rw [Graph.width, hc.node_eq n hn]

theorem exists_of_reaches (hc : g.Copies f h e node root) (hm : h.Reaches (node e) m) :
    ∃ n, g.Reaches e n ∧ node n = m := by
  refine hm.closed (p := fun m => ∃ n, g.Reaches e n ∧ node n = m) ⟨e, .refl e, rfl⟩ ?_
  rintro _ ⟨n, hn, rfl⟩ child hchild
  rw [hc.expr_eq hn, Expr.children_relabel, List.mem_map] at hchild
  obtain ⟨child', hchild', rfl⟩ := hchild
  exact ⟨child', hn.tail hchild', rfl⟩

theorem grow (hc : g.Copies f h e node root) (wh : h.WellFormed) (hk : h.Grows k) :
    g.Copies f k e node root := by
  refine ⟨fun n hn => hk.lt_size (hc.lt_size n hn), fun n hn => ?_, fun n hn r hr => ?_⟩
  · rw [hk.isExtendedBy.node_eq (hc.lt_size n hn), hc.node_eq n hn]
  · have hr' : root r ∈ (h.expr (node n)).roots := by
      rw [hc.expr_eq hn, Expr.roots_relabel]
      exact List.mem_map_of_mem hr
    rw [hk.isExtendedBy.root_eq (wh.root_lt (hc.lt_size n hn) hr'), hc.root_eq n hn r hr]

theorem of_grows (hc : h.Copies f k e node root) (wf : g.WellFormed) (he : e < g.size)
    (gh : g.Grows h) :
    g.Copies f k e node root := by
  have below : ∀ n, g.Reaches e n → n < g.size ∧ h.Reaches e n := fun n hn =>
    ⟨hn.lt_size wf he, (gh.reaches_iff wf he).2 hn⟩
  refine ⟨fun n hn => hc.lt_size n (below n hn).2, fun n hn => ?_, fun n hn r hr => ?_⟩
  · obtain ⟨hlt, hn⟩ := below n hn
    rw [hc.node_eq n hn, gh.expr_eq hlt, gh.width_eq hlt]
  · obtain ⟨hlt, hn⟩ := below n hn
    rw [hc.root_eq n hn r (by rwa [gh.expr_eq hlt]), gh.isExtendedBy.root_eq (wf.root_lt hlt hr)]

end Graph.Copies

namespace Build

theorem read_new (size : Nat) (root : RootId) (index : NodeId) :
    Ensures (fun g => size ≤ g.size) (read root index) (fun r _ => size ≤ r) fun _ _ => True := by
  apply Ensures.bind_get
  intro g hg
  by_cases hr : g.roots.size ≤ root
  · rw [if_pos hr]
    exact .throw fun _ _ => trivial
  · rw [if_neg hr]
    apply Ensures.bind_get_self
    split
    · exact .throw fun _ _ => trivial
    · split
      · rintro _ rfl
        exact hg
      · exact .throw fun _ _ => trivial

end Build

namespace Renamer

variable {translations : Translations} {g₀ : Graph}

def RootsSince (g₀ : Graph) (newRoots : NewRoots) : Prop :=
  ∀ old new : RootId, newRoots[old]? = some new → g₀.roots.size ≤ new

theorem rootsSince_empty : RootsSince g₀ ∅ := by
  intro old new h
  simp at h

theorem RootsSince.insert {newRoots : NewRoots} {old new : RootId} (h : RootsSince g₀ newRoots)
    (hnew : g₀.roots.size ≤ new) : RootsSince g₀ (newRoots.insert old new) := by
  intro old' new' h'
  rw [Std.TreeMap.getElem?_insert] at h'
  split at h'
  · cases h'
    exact hnew
  · exact h old' new' h'

structure Beyond (g₀ : Graph) (s : CallbackState NewRoots) : Prop where
  size_le : g₀.size ≤ s.graph.size
  roots_size_le : g₀.roots.size ≤ s.graph.roots.size
  roots : RootsSince g₀ s.notes

theorem newRoot_beyond {old : RootId} {name : String} :
    Ensures (Beyond g₀) (newRoot old name) (fun _ s => Beyond g₀ s) fun _ _ => True := by
  apply Ensures.bind_get
  rintro ⟨g, notes⟩ hs
  dsimp only
  cases notes[old]? with
  | some new => exact .pure fun _ h => h ▸ hs
  | none =>
    apply Ensures.bind_get_self
    rintro _ rfl
    exact ⟨hs.size_le, Nat.le_trans hs.roots_size_le (by simp), hs.roots.insert hs.roots_size_le⟩

theorem callback_beyond {e : NodeId} :
    Ensures (Beyond g₀) (callback translations e)
      (fun new s => (∀ r, new = some r → g₀.size ≤ r) ∧ RootsSince g₀ s.notes) fun _ _ => True := by
  apply Ensures.bind_get
  intro s hs
  have stays : Ensures (· = s) (pure none) (fun (new : Option NodeId) t =>
      (∀ r, new = some r → g₀.size ≤ r) ∧ RootsSince g₀ t.notes) fun (_ : Error) _ => True :=
    .pure fun _ h => h ▸ ⟨nofun, hs.roots⟩
  dsimp only
  cases s.graph.expr e with
  | read old index =>
    dsimp only
    cases translations[(s.graph.root old).name]? with
    | none => exact stays
    | some name =>
      refine (newRoot_beyond.start hs (fun _ _ h => h) fun _ _ h => h).bind fun new t ht => ?_
      have added := CallbackState.build_ensures (Build.read_new g₀.size new index) t.notes
      refine (added.weaken_fail fun _ _ _ => trivial).bind (fun r => .pure fun u hu => ⟨?_, ?_⟩) t
        ⟨ht.size_le, rfl⟩
      · rintro _ ⟨⟩
        exact hu.1
      · exact hu.2 ▸ ht.roots
  | _ => exact stays

/-- What stands for a node is the node itself or new since the graph was `g₀`, and all new roots
are. -/
structure NewSince (g₀ : Graph) (s : Pass NewRoots) : Prop where
  nodes : Remembered (fun n r => r = n ∨ g₀.size ≤ r) s.replacements
  roots : RootsSince g₀ s.notes

theorem keeps_newSince (translations : Translations) (g₀ : Graph) :
    Pass.Keeps HasRoots (callback translations) g₀ (NewSince g₀) fun _ _ => True where
  grow := fun hs _ _ _ => ⟨hs.inv.nodes, hs.inv.roots⟩
  up := fun _ _ _ _ _ => trivial
  step := by
    intro s e ids m hs hm
    have start : Beyond g₀ ⟨s.graph, s.notes⟩ :=
      ⟨hs.grows.size_le, hs.grows.isExtendedBy.roots_size_le, hs.inv.roots⟩
    refine callback_beyond.start start
      (fun new t ht _ => ⟨hs.inv.nodes.insert ?_, ht.2⟩) fun _ _ h => h
    cases new with
    | none => exact hm.new
    | some r => exact .inr (ht.1 r rfl)

end Renamer

namespace Renaming

open Renamer

def pass (s : Renaming) : Pass NewRoots := ⟨s.graph, s.renamer.replacements, s.renamer.newRoots⟩

structure Underway (translations : Translations) (g₀ : Graph) (s : Renaming) : Prop where
  translations_eq : s.renamer.translations = translations
  holds : Pass.Holds HasRoots g₀ (fun pass => Copied translations g₀ pass ∧ NewSince g₀ pass) s.pass

variable {translations : Translations} {g g₀ : Graph} {s : Renaming} {e : NodeId}

theorem start_underway (wf : s.graph.WellFormed) :
    ∃ t, start s = .ok () t ∧ Underway s.renamer.translations s.graph t := by
  have copied := holds_start s.renamer.translations wf
  exact ⟨_, rfl, rfl, copied.grows, copied.sound, copied.inv, remembered_empty, rootsSince_empty⟩

theorem resume_underway (wf : g₀.WellFormed) (he : e < g₀.size) (hs : Underway translations g₀ s) :
    ∃ r t, resume e s = .ok r t ∧ Underway translations g₀ t ∧ t.pass.replacements[e]? = some r ∧
      ∀ n r' : NodeId, s.pass.replacements[n]? = some r' → t.pass.replacements[n]? = some r' := by
  obtain ⟨g, translations, replacements, newRoots⟩ := s
  obtain ⟨rfl, holds⟩ := hs
  have keeps := (keeps_copied wf).and (keeps_newSince translations g₀)
  obtain ⟨r, t, run, leads, ht, hr⟩ | ⟨_, _, _, impossible⟩ :=
    (Pass.rewrite_keeps (callback_sound translations) keeps wf he holds).outcome rfl
  · refine ⟨r, ⟨t.graph, translations, t.replacements, t.notes⟩, ?_, ⟨rfl, ht⟩, hr, leads.kept⟩
    change Pass.rewrite (callback translations) e ⟨g, replacements, newRoots⟩ = _ at run
    simp only [resume, run]
  · exact impossible.1.elim

theorem renameConstraints_underway (wf : g₀.WellFormed) {es : List NodeId} (renamed : ConstraintSet)
    (hes : ∀ e ∈ es, e < g₀.size ∧ g₀.width e = 1) (hs : Underway translations g₀ s) :
    ∃ t, renameConstraints es renamed s =
        .ok ⟨renamed.constraints ++ es.map t.pass.image⟩ t ∧ Underway translations g₀ t ∧
      (∀ e ∈ es, ∃ r : NodeId, t.pass.replacements[e]? = some r) ∧
      ∀ n r : NodeId, s.pass.replacements[n]? = some r → t.pass.replacements[n]? = some r := by
  induction es generalizing s renamed with
  | nil => exact ⟨s, by simp [renameConstraints, pure, EStateM.pure], hs, by simp, fun _ _ h => h⟩
  | cons e es ih =>
    obtain ⟨he, hw⟩ := hes e List.mem_cons_self
    obtain ⟨r, t, run, ht, hr, kept⟩ := resume_underway wf he hs
    have hwr : t.graph.width r = 1 := by
      have width := (ht.holds.sound.replaced e r hr).2.2
      exact width.trans ((ht.holds.grows.width_eq he).trans hw)
    have added : renamed.add t.graph r = .ok ⟨renamed.constraints ++ [r]⟩ :=
      ConstraintSet.add_eq_ok_iff.2 ⟨hwr, rfl⟩
    obtain ⟨u, rest, hu, entries, keptOn⟩ :=
      ih ⟨renamed.constraints ++ [r]⟩ (fun e' he' => hes e' (List.mem_cons_of_mem e he')) ht
    refine ⟨u, ?_, hu, ?_, fun n r' h => keptOn n r' (kept n r' h)⟩
    · rw [renameConstraints, bind_apply_of_ok run, get_bind_apply, added]
      refine rest.trans ?_
      simp [Pass.image_eq (keptOn e r hr)]
    · exact List.forall_mem_cons.2 ⟨⟨r, keptOn e r hr⟩, entries⟩

/-- `renamed` is a copy of `set`, made while the graph grew from `before` to `after`: one node
stands for each node below its constraints, one root for each root, and what was not there before
lies between. -/
structure SetCopy (translations : Translations) (g before after : Graph)
    (set renamed : ConstraintSet) (node : NodeId → NodeId) (root : RootId → RootId) : Prop where
  constraints_eq : renamed.constraints = set.constraints.map node
  copies : ∀ e ∈ set.constraints, g.Copies (Root.translated translations) after e node root
  node : ∀ n, node n = n ∨ before.size ≤ node n ∧ node n < after.size
  root : ∀ old, root old = old ∨ before.roots.size ≤ root old ∧ root old < after.roots.size

namespace SetCopy

variable {before before' after after' k : Graph} {set renamed : ConstraintSet} {n : NodeId}
variable {node : NodeId → NodeId} {root : RootId → RootId} {r : RootId}

theorem widen (hc : SetCopy translations g before after set renamed node root)
    (wf : after.WellFormed) (hb : before'.Grows before) (ha : after.Grows after') :
    SetCopy translations g before' after' set renamed node root := by
  refine ⟨hc.constraints_eq, fun e he => (hc.copies e he).grow wf ha, fun n => ?_, fun old => ?_⟩
  · exact (hc.node n).imp_right fun h =>
      ⟨Nat.le_trans hb.size_le h.1, Nat.lt_of_lt_of_le h.2 ha.size_le⟩
  · exact (hc.root old).imp_right fun h =>
      ⟨Nat.le_trans hb.isExtendedBy.roots_size_le h.1,
        Nat.lt_of_lt_of_le h.2 ha.isExtendedBy.roots_size_le⟩

theorem exists_of_reaches (hc : SetCopy translations g before after set renamed node root)
    (hn : renamed.Reaches after n) : ∃ e ∈ set.constraints, ∃ m, g.Reaches e m ∧ node m = n := by
  obtain ⟨r, hr, hn⟩ := hn
  rw [hc.constraints_eq, List.mem_map] at hr
  obtain ⟨e, he, rfl⟩ := hr
  obtain ⟨m, hm, rfl⟩ := (hc.copies e he).exists_of_reaches hn
  exact ⟨e, he, m, hm, rfl⟩

/-- In what the graph grows to later, a node in the result was there before all sets or was added
for this one, and so was a root that the result reads. -/
theorem occurs (hc : SetCopy translations g before after set renamed node root) (wf : g.WellFormed)
    (hset : set.Built g) (wb : before.WellFormed) (wa : after.WellFormed) (hk : after.Grows k) :
    (∀ n, renamed.Reaches k n → n < g.size ∨ before.size ≤ n ∧ n < after.size) ∧
      ∀ r, renamed.Reads k r → r < g.roots.size ∨ before.roots.size ≤ r ∧ r < after.roots.size := by
  have later := hc.widen wa wb.grows hk
  constructor
  · intro n hn
    obtain ⟨e, he, m, hm, rfl⟩ := later.exists_of_reaches hn
    refine (hc.node m).imp_left fun hself => ?_
    rw [hself]
    exact hm.lt_size wf (hset.width_eq e he).1
  · rintro r ⟨n, hn, hr⟩
    obtain ⟨e, he, m, hm, rfl⟩ := later.exists_of_reaches hn
    rw [(later.copies e he).expr_eq hm, Expr.roots_relabel, List.mem_map] at hr
    obtain ⟨old, hold, rfl⟩ := hr
    refine (hc.root old).imp_left fun hself => ?_
    rw [hself]
    exact wf.root_lt (hm.lt_size wf (hset.width_eq e he).1) hold

end SetCopy

theorem Underway.setCopy {set : ConstraintSet} (hs : Underway translations g₀ s) (wf : g.WellFormed)
    (grown : g.Grows g₀) (hset : set.Built g)
    (entries : ∀ e ∈ set.constraints, ∃ r : NodeId, s.pass.replacements[e]? = some r) :
    SetCopy translations g g₀ s.graph set ⟨set.constraints.map s.pass.image⟩ s.pass.image
      s.pass.newRoot := by
  have copied := hs.holds.imp And.left
  refine ⟨rfl, fun e he => ?_, fun n => ?_, fun old => ?_⟩
  · obtain ⟨r, hr⟩ := entries e he
    have lt := (hset.width_eq e he).1
    exact (copies_of_holds grown.wellFormed (grown.lt_size lt) copied hr).of_grows wf lt grown
  · cases hr : s.pass.replacements[n]? with
    | none =>
      exact .inl (by rw [Pass.image, Std.TreeMap.getD_eq_getD_getElem?, hr, Option.getD_none])
    | some r =>
      rw [Pass.image_eq hr]
      exact (hs.holds.inv.2.nodes n r hr).imp_right fun h =>
        ⟨h, (hs.holds.sound.replaced n r hr).2.1⟩
  · cases hr : s.pass.notes[old]? with
    | none => exact .inl (Pass.newRoot_self hr)
    | some r =>
      rw [Pass.newRoot_eq hr]
      exact .inr ⟨hs.holds.inv.2.roots old r hr, hs.holds.sound.notes old r hr⟩

theorem renameSet_copies {set : ConstraintSet} (wf : g.WellFormed) (hset : set.Built g)
    (grown : g.Grows s.graph) :
    ∃ renamed t, (do start; renameConstraints set.constraints {} : EStateM Error Renaming _) s =
        .ok renamed t ∧ s.graph.Grows t.graph ∧ t.renamer.translations = s.renamer.translations ∧
      ∃ node root,
        SetCopy s.renamer.translations g s.graph t.graph set renamed node root := by
  obtain ⟨u, started, underway⟩ := start_underway grown.wellFormed
  have widths : ∀ e ∈ set.constraints, e < s.graph.size ∧ s.graph.width e = 1 := fun e he =>
    have ⟨lt, hw⟩ := hset.width_eq e he
    ⟨grown.lt_size lt, (grown.width_eq lt).trans hw⟩
  obtain ⟨t, run, ht, entries, -⟩ := renameConstraints_underway grown.wellFormed {} widths underway
  exact ⟨_, t, (bind_apply_of_ok started).trans run, ht.holds.grows, ht.translations_eq,
    t.pass.image, t.pass.newRoot, ht.setCopy wf grown hset entries⟩

/-- Sets are renamed one after the other without fail, and each result is a copy of its set. -/
theorem renameSets_copies {sets : List ConstraintSet} (wf : g.WellFormed)
    (hsets : ∀ set ∈ sets, set.Built g) (grown : g.Grows s.graph) :
    ∃ renamed t, renameSets sets s = .ok renamed t ∧ s.graph.Grows t.graph ∧
      t.renamer.translations = s.renamer.translations ∧
      List.Forall₂ (fun set set' => ∃ node root,
        SetCopy s.renamer.translations g s.graph t.graph set set' node root) sets renamed := by
  induction sets generalizing s with
  | nil => exact ⟨[], s, rfl, grown.wellFormed.grows, rfl, .nil⟩
  | cons set sets ih =>
    obtain ⟨renamed, t, run, step, same, node, root, copy⟩ :=
      renameSet_copies wf (hsets set List.mem_cons_self) grown
    obtain ⟨rest, u, runOn, more, sameOn, copies⟩ :=
      ih (fun set' h => hsets set' (List.mem_cons_of_mem set h)) (grown.trans step)
    refine ⟨renamed :: rest, u, ?_, step.trans more, sameOn.trans same, .cons ?_ ?_⟩
    · rw [renameSets, List.mapM_cons, bind_apply_of_ok run]
      exact bind_apply_of_ok runOn
    · exact ⟨node, root, copy.widen step.wellFormed grown.wellFormed.grows more⟩
    · rw [same] at copies
      refine copies.imp fun set' renamed' ⟨node, root, copy⟩ => ⟨node, root, ?_⟩
      exact copy.widen more.wellFormed step more.wellFormed.grows

theorem renameSets_append {sets sets' renamed renamed' : List ConstraintSet} {t u : Renaming}
    (h : renameSets sets s = .ok renamed t) (h' : renameSets sets' t = .ok renamed' u) :
    renameSets (sets ++ sets') s = .ok (renamed ++ renamed') u := by
  have split : renameSets (sets ++ sets') =
      (do return (← renameSets sets) ++ (← renameSets sets')) := List.mapM_append
  rw [split, bind_apply_of_ok h]
  exact bind_apply_of_ok h'

namespace SetCopy

variable {before after : Graph} {set renamed : ConstraintSet} {node : NodeId → NodeId}
variable {root : RootId → RootId}

theorem width_eq (hc : SetCopy translations g before after set renamed node root)
    (hset : set.Built g) (he : e ∈ set.constraints) : after.width (node e) = 1 :=
  ((hc.copies e he).width_eq (.refl e)).trans (hset.width_eq e he).2

theorem sameStructure (hc : SetCopy translations g before after set renamed node root)
    (wf : g.WellFormed) (grown : g.Grows after) (hset : set.Built g) (he : e ∈ set.constraints)
    (alone : Renamer) (same : alone.translations = translations) :
    ∃ r t, rename e ⟨after, alone⟩ = .ok r t ∧ t.graph.sameStructure (node e) r = true := by
  have lt := (hset.width_eq e he).1
  have copy := hc.copies e he
  have there := copy.lt_size e (.refl e)
  obtain ⟨r, t, run, more, hr, tree⟩ := rename_tree grown.wellFormed (grown.lt_size lt) alone
  refine ⟨r, t, run, (more.wellFormed.sameStructure_iff (more.lt_size there) hr).2 ?_⟩
  rw [more.tree_eq grown.wellFormed there, copy.tree_eq wf grown.wellFormed lt (.refl e), tree,
    same, grown.tree_eq wf lt]

end SetCopy

theorem occurs_of_copies {before after k : Graph} {sets renamed : List ConstraintSet}
    (copies : List.Forall₂ (fun set set' => ∃ node root,
      SetCopy translations g before after set set' node root) sets renamed)
    (wf : g.WellFormed) (hsets : ∀ set ∈ sets, set.Built g) (wb : before.WellFormed)
    (grown : before.Grows after) (hk : after.Grows k) :
    ∀ set' ∈ renamed,
      (∀ n, set'.Reaches k n → n < g.size ∨ before.size ≤ n ∧ n < after.size) ∧
        ∀ r, set'.Reads k r → r < g.roots.size ∨ before.roots.size ≤ r ∧ r < after.roots.size := by
  induction copies with
  | nil => simp
  | cons first _ ih =>
    obtain ⟨node, root, copy⟩ := first
    exact List.forall_mem_cons.2
      ⟨copy.occurs wf (hsets _ List.mem_cons_self) wb grown.wellFormed hk,
        ih fun set h => hsets set (List.mem_cons_of_mem _ h)⟩

/-- Constraint sets are renamed without fail, each as a whole and apart from the others. For each
set there is one map of nodes and one of roots: the results are the images of the constraints in
their order, what is below a constraint is copied along the two maps, and an image has one bit and
the structure that renaming its constraint alone gives. No node and no root that is added for one
set occurs in the result of another. -/
theorem renameSets_apart (wf : g.WellFormed) (renamer : Renamer) {sets : List ConstraintSet}
    (hsets : ∀ set ∈ sets, set.Built g) :
    ∃ renamed t, renameSets sets ⟨g, renamer⟩ = .ok renamed t ∧ g.Grows t.graph ∧
      List.Forall₂ (fun set set' => ∃ node root, set'.constraints = set.constraints.map node ∧
        ∀ e ∈ set.constraints, t.graph.width (node e) = 1 ∧
          g.Copies (Root.translated renamer.translations) t.graph e node root ∧
          ∀ alone : Renamer, alone.translations = renamer.translations →
            ∃ r u, rename e ⟨t.graph, alone⟩ = .ok r u ∧ u.graph.sameStructure (node e) r = true)
        sets renamed ∧
      ∀ before set after, sets = before ++ set :: after →
        ∃ renamedBefore set' renamedAfter s₁ s₂, renamed = renamedBefore ++ set' :: renamedAfter ∧
          renameSets before ⟨g, renamer⟩ = .ok renamedBefore s₁ ∧
          renameSets [set] s₁ = .ok [set'] s₂ ∧ renameSets after s₂ = .ok renamedAfter t ∧
          ∀ other ∈ renamedBefore ++ renamedAfter,
            (∀ n, other.Reaches t.graph n → ¬ (s₁.graph.size ≤ n ∧ n < s₂.graph.size)) ∧
            ∀ r, other.Reads t.graph r →
              ¬ (s₁.graph.roots.size ≤ r ∧ r < s₂.graph.roots.size) := by
  obtain ⟨renamed, t, run, grown, -, copies⟩ :=
    renameSets_copies (s := ⟨g, renamer⟩) wf hsets wf.grows
  refine ⟨renamed, t, run, grown, ?_, ?_⟩
  · refine ((List.forall₂_and_left sets renamed).2 ⟨hsets, copies⟩).imp ?_
    rintro set set' ⟨hset, node, root, copy⟩
    refine ⟨node, root, copy.constraints_eq, fun e he => ?_⟩
    exact ⟨(copy.width_eq hset he), copy.copies e he, copy.sameStructure wf grown hset he⟩
  · rintro before set after rfl
    have hbefore : ∀ set' ∈ before, set'.Built g := fun set' h => hsets set' (by simp [h])
    have hset : ∀ set' ∈ [set], set'.Built g := fun set' h => hsets set' (by simp_all)
    have hafter : ∀ set' ∈ after, set'.Built g := fun set' h => hsets set' (by simp [h])
    obtain ⟨renamedBefore, s₁, run₁, grown₁, -, copies₁⟩ :=
      renameSets_copies (s := ⟨g, renamer⟩) wf hbefore wf.grows
    obtain ⟨results, s₂, run₂, grown₂, -, copies₂⟩ := renameSets_copies wf hset grown₁
    obtain ⟨set', rfl⟩ : ∃ set', results = [set'] :=
      List.length_eq_one_iff.1 (by simpa using copies₂.length_eq.symm)
    obtain ⟨renamedAfter, t', run₃, grown₃, -, copies₃⟩ :=
      renameSets_copies wf hafter (grown₁.trans grown₂)
    have whole := renameSets_append run₁ (renameSets_append run₂ run₃)
    rw [List.singleton_append, run] at whole
    cases whole
    refine ⟨renamedBefore, set', renamedAfter, s₁, s₂, rfl, run₁, run₂, run₃,
      fun other hother => ?_⟩
    have size_le := grown₁.size_le
    have roots_le := grown₁.isExtendedBy.roots_size_le
    obtain hother | hother := List.mem_append.1 hother
    · obtain ⟨nodes, roots⟩ :=
        occurs_of_copies copies₁ wf hbefore wf grown₁ (grown₂.trans grown₃) other hother
      exact ⟨fun n hn => by have := nodes n hn; lia, fun r hr => by have := roots r hr; lia⟩
    · obtain ⟨nodes, roots⟩ := occurs_of_copies copies₃ wf hafter grown₂.wellFormed grown₃
        grown₃.wellFormed.grows other hother
      exact ⟨fun n hn => by have := nodes n hn; lia, fun r hr => by have := roots r hr; lia⟩

/-- Two sets overlap in a comparison, and the first has another constraint twice. It has it twice
afterwards. The byte that is compared is read from one new root in the first result and from another
in the second, where a constraint without it stays as it is. -/
theorem renameSets_apart_of_overlap :
    let g : Graph :=
      { nodes := #[⟨.constant ⟨0, 32⟩, 32⟩, ⟨.read 0 0, 8⟩, ⟨.constant ⟨7, 8⟩, 8⟩,
          ⟨.compare .eq 1 2, 1⟩, ⟨.compare .ult 1 2, 1⟩, ⟨.read 1 0, 8⟩, ⟨.compare .ne 5 2, 1⟩]
        roots := #[.symbolic "packet" 64, .symbolic "config" 8] }
    let first : ConstraintSet := ⟨[3, 4, 3]⟩
    let second : ConstraintSet := ⟨[4, 6]⟩
    let renamer : Renamer := .ofTranslations (.ofList [("packet", "packet_2")])
    g.WellFormed ∧ (∀ set ∈ [first, second], set.Built g) ∧
      ∃ t, renameSets [first, second] ⟨g, renamer⟩ = .ok [⟨[8, 9, 8]⟩, ⟨[11, 6]⟩] t ∧
        ∃ s, renameSets [first] ⟨g, renamer⟩ = .ok [⟨[8, 9, 8]⟩] s ∧
          (∀ n, ConstraintSet.Reaches ⟨[11, 6]⟩ t.graph n → ¬ (g.size ≤ n ∧ n < s.graph.size)) ∧
          ∀ r, ConstraintSet.Reads ⟨[11, 6]⟩ t.graph r →
            ¬ (g.roots.size ≤ r ∧ r < s.graph.roots.size) := by
  intro g first second renamer
  have wf : g.WellFormed := by decide +kernel
  have built : ∀ set ∈ [first, second], set.Built g := by
    have one : ∀ {set : ConstraintSet} {e : NodeId}, set.Built g → g.width e = 1 →
        ConstraintSet.Built g ⟨set.constraints ++ [e]⟩ :=
      fun h hw => h.add (.refl g) (ConstraintSet.add_eq_ok_iff.2 ⟨hw, rfl⟩)
    refine List.forall_mem_cons.2 ⟨?_, List.forall_mem_singleton.2 ?_⟩
    · exact one (e := 3) (one (e := 4) (one (e := 3) .empty (by decide)) (by decide)) (by decide)
    · exact one (e := 6) (one (e := 4) .empty (by decide)) (by decide)
  obtain ⟨renamed, t, run, -, -, apart⟩ := renameSets_apart wf renamer built
  have answer : answer? (renameSets [first, second] ⟨g, renamer⟩) =
      some [⟨[8, 9, 8]⟩, ⟨[11, 6]⟩] := by decide +kernel
  obtain ⟨renamedBefore, set', renamedAfter, s₁, s₂, hrenamed, run₁, run₂, run₃, others⟩ :=
    apart [] first [second] rfl
  cases run₁
  rw [run] at answer
  cases answer
  cases hrenamed
  exact ⟨wf, built, t, run, s₂, run₂, others ⟨[11, 6]⟩ (by simp)⟩

end Renaming

end BitvectorCode
