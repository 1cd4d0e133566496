import BitvectorCode.Proofs.Graph.Reachability
import BitvectorCode.SmtLib.Declaration

/-!
# What declarations depend on

The dependencies of some nodes are what they reach, each node once and after its children. The walk
lists a node when it is done with the nodes below it. Until then the node is only marked, so what is
marked but not listed lies above the node that the walk is at. Of the roots that the dependencies
read, one stands for each name.
-/

namespace BitvectorCode

/-- Nodes come after their children, and none comes twice. -/
inductive Graph.ChildrenFirst (g : Graph) : List NodeId → Prop where
  | nil : ChildrenFirst g []
  | snoc {nodes : List NodeId} {e : NodeId} (before : ChildrenFirst g nodes) (new : e ∉ nodes)
    (children : ∀ child ∈ (g.expr e).children, child ∈ nodes) : ChildrenFirst g (nodes ++ [e])

namespace Graph.ChildrenFirst

variable {g : Graph} {nodes : List NodeId} {n : NodeId}

theorem around (h : g.ChildrenFirst nodes) : g.ChildrenFirstAround (fun _ => False) nodes := by
  induction h with
  | nil => exact .nil
  | snoc _ new children ih => exact ih.snoc new id fun child hchild => .inr (children child hchild)

theorem nodup (h : g.ChildrenFirst nodes) : nodes.Nodup := h.around.nodup

theorem children_mem (h : g.ChildrenFirst nodes) {before after : List NodeId}
    (hsplit : nodes = before ++ n :: after) : ∀ child ∈ (g.expr n).children, child ∈ before :=
  fun child hchild => (h.around.children_mem hsplit child hchild).resolve_left id

theorem closed (h : g.ChildrenFirst nodes) (hn : n ∈ nodes) :
    ∀ child ∈ (g.expr n).children, child ∈ nodes :=
  fun child hchild => (h.around.closed hn child hchild).resolve_left id

end Graph.ChildrenFirst

namespace DependencyOrder

variable {g : Graph} {found found' last : DependencyOrder} {e n bound : NodeId} {es : List NodeId}

def enter (found : DependencyOrder) (e : NodeId) : DependencyOrder :=
  { found with seen := found.seen.insert e }

def leave (found : DependencyOrder) (e : NodeId) : DependencyOrder :=
  { found with order := found.order.push e }

theorem visitWithin_of_seen {depth : Nat} (h : e ∈ found.seen) :
    visitWithin g (depth + 1) e found = found := by
  rw [visitWithin]
  exact if_pos (Std.TreeSet.mem_iff_contains.1 h)

theorem visitWithin_of_not_seen {depth : Nat} (h : e ∉ found.seen) :
    visitWithin g (depth + 1) e found =
      ((g.expr e).children.foldl (fun found child => visitWithin g depth child found)
        (found.enter e)).leave e := by
  rw [visitWithin]
  exact if_neg (mt Std.TreeSet.mem_iff_contains.2 h)

theorem mem_enter_seen : n ∈ (found.enter e).seen ↔ n = e ∨ n ∈ found.seen := by
  rw [enter, Std.TreeSet.mem_insert, Std.compare_eq_iff_eq, eq_comm]

theorem mem_leave_order : n ∈ (found.leave e).order ↔ n ∈ found.order ∨ n = e := Array.mem_push

/-- The listed nodes are marked and in order, and below `bound` all marked nodes are listed. -/
structure Ordered (g : Graph) (bound : NodeId) (found : DependencyOrder) : Prop where
  first : g.ChildrenFirst found.order.toList
  seen : ∀ n ∈ found.order, n ∈ found.seen
  done : ∀ n < bound, n ∈ found.seen → n ∈ found.order

/-- From `found` to `found'` the nodes `es` were visited: nothing is lost, what is new is below one
of them, and nothing is left half done. -/
structure Leads (g : Graph) (bound : NodeId) (es : List NodeId) (found found' : DependencyOrder) :
    Prop where
  ordered : found'.Ordered g bound
  kept : ∀ n ∈ found.order, n ∈ found'.order
  marked : ∀ n ∈ found.seen, n ∈ found'.seen
  met : ∀ e ∈ es, e ∈ found'.seen
  added : ∀ n ∈ found'.order, n ∈ found.order ∨ ∃ e ∈ es, g.Reaches e n
  new : ∀ n ∈ found'.seen, n ∈ found.seen ∨ ∃ e ∈ es, g.Reaches e n

theorem Leads.nil (h : found.Ordered g bound) : Leads g bound [] found found :=
  ⟨h, fun _ h => h, fun _ h => h, by simp, fun _ h => .inl h, fun _ h => .inl h⟩

theorem Leads.cons (first : Leads g bound [e] found found') (rest : Leads g bound es found' last) :
    Leads g bound (e :: es) found last where
  ordered := rest.ordered
  kept := fun n hn => rest.kept n (first.kept n hn)
  marked := fun n hn => rest.marked n (first.marked n hn)
  met := List.forall_mem_cons.2 ⟨rest.marked e (first.met e (by simp)), rest.met⟩
  added := by
    intro n hn
    simp only [List.mem_cons, exists_eq_or_imp, ← or_assoc]
    exact (rest.added n hn).imp_left fun hn => by simpa using first.added n hn
  new := by
    intro n hn
    simp only [List.mem_cons, exists_eq_or_imp, ← or_assoc]
    exact (rest.new n hn).imp_left fun hn => by simpa using first.new n hn

theorem foldl_leads {f : DependencyOrder → NodeId → DependencyOrder}
    (hf : ∀ e ∈ es, ∀ found, found.Ordered g bound → Leads g bound [e] found (f found e))
    (h : found.Ordered g bound) : Leads g bound es found (es.foldl f found) := by
  induction es generalizing found with
  | nil => exact .nil h
  | cons e es ih =>
    have first := hf e (by simp) found h
    exact first.cons (ih (fun e' he' => hf e' (by simp [he'])) first.ordered)

theorem visitWithin_leads (wf : g.WellFormed) {depth : Nat} (hd : e < depth) (he : e < bound)
    (h : found.Ordered g bound) : Leads g bound [e] found (visitWithin g depth e found) := by
  induction depth generalizing e found bound with
  | zero => exact absurd hd (Nat.not_lt_zero e)
  | succ depth ih =>
    by_cases hs : e ∈ found.seen
    · rw [visitWithin_of_seen hs]
      exact ⟨h, fun _ h => h, fun _ h => h, by simpa using hs, fun _ h => .inl h, fun _ h => .inl h⟩
    rw [visitWithin_of_not_seen hs]
    have below : ∀ child ∈ (g.expr e).children, child < e := fun child hc => wf.child_lt hc
    have entered : (found.enter e).Ordered g e := by
      refine ⟨h.first, fun n hn => mem_enter_seen.2 (.inr (h.seen n hn)), fun n hlt hn => ?_⟩
      exact h.done n (Nat.lt_trans hlt he) ((mem_enter_seen.1 hn).resolve_left (Nat.ne_of_lt hlt))
    have rest := foldl_leads (f := fun found child => visitWithin g depth child found)
      (fun child hc found hfound => ih (by have := below child hc; lia) (below child hc) hfound)
      entered
    generalize (g.expr e).children.foldl (fun found child => visitWithin g depth child found)
      (found.enter e) = last at rest ⊢
    have lower : ∀ {n}, (∃ child ∈ (g.expr e).children, g.Reaches child n) →
        n < e ∧ g.Reaches e n := by
      rintro n ⟨child, hc, hr⟩
      exact ⟨Nat.lt_of_le_of_lt (hr.le wf) (below child hc), .of_child hc hr⟩
    have fresh : e ∉ last.order := by
      intro hn
      rcases rest.added e hn with hn | hn
      · exact hs (h.seen e hn)
      · exact Nat.lt_irrefl e (lower hn).1
    have listed : ∀ child ∈ (g.expr e).children, child ∈ last.order :=
      fun child hc => rest.ordered.done child (below child hc) (rest.met child hc)
    have hmet : e ∈ last.seen := rest.marked e (mem_enter_seen.2 (.inl rfl))
    refine ⟨⟨?_, fun n hn => ?_, fun n hlt hn => ?_⟩, fun n hn => ?_, fun n hn => ?_,
      List.forall_mem_singleton.2 hmet, fun n hn => ?_, fun n hn => ?_⟩
    · rw [leave, Array.toList_push]
      exact .snoc rest.ordered.first (by simpa using fresh) (by simpa using listed)
    · rcases mem_leave_order.1 hn with hn | rfl
      · exact rest.ordered.seen n hn
      · exact hmet
    · refine mem_leave_order.2 ?_
      rcases Nat.lt_trichotomy n e with hne | rfl | hne
      · exact .inl (rest.ordered.done n hne hn)
      · exact .inr rfl
      · refine .inl (rest.kept n (h.done n hlt ?_))
        rcases rest.new n hn with hn | hn
        · exact (mem_enter_seen.1 hn).resolve_left (Nat.ne_of_gt hne)
        · have := (lower hn).1
          lia
    · exact mem_leave_order.2 (.inl (rest.kept n hn))
    · exact rest.marked n (mem_enter_seen.2 (.inr hn))
    · rcases mem_leave_order.1 hn with hn | rfl
      · exact (rest.added n hn).imp_right fun hn => ⟨e, by simp, (lower hn).2⟩
      · exact .inr ⟨n, by simp, .refl n⟩
    · rcases rest.new n hn with hn | hn
      · rcases mem_enter_seen.1 hn with rfl | hn
        · exact .inr ⟨n, by simp, .refl n⟩
        · exact .inl hn
      · exact .inr ⟨e, by simp, (lower hn).2⟩

end DependencyOrder

namespace Graph

variable {g : Graph} {targets nodes : List NodeId} {n : NodeId}

def Below (g : Graph) (targets : List NodeId) (n : NodeId) : Prop := ∃ e ∈ targets, g.Reaches e n

theorem Below.of_mem (hn : n ∈ targets) : g.Below targets n := ⟨n, hn, .refl n⟩

theorem Below.child (hn : g.Below targets n) {child : NodeId} (hc : child ∈ (g.expr n).children) :
    g.Below targets child := by
  obtain ⟨e, he, hr⟩ := hn
  exact ⟨e, he, hr.tail hc⟩

theorem Below.lt_size (hn : g.Below targets n) (wf : g.WellFormed)
    (ht : ∀ e ∈ targets, e < g.size) :
    n < g.size := by
  obtain ⟨e, he, hr⟩ := hn
  exact hr.lt_size wf (ht e he)

/-- The dependencies are in order, and they are what the nodes reach. -/
theorem WellFormed.dependencies (wf : g.WellFormed) (ht : ∀ e ∈ targets, e < g.size) :
    g.ChildrenFirst (g.dependencies targets) ∧
      ∀ n, n ∈ g.dependencies targets ↔ g.Below targets n := by
  have start : DependencyOrder.Ordered g g.size {} := ⟨.nil, by simp, by simp⟩
  have leads := DependencyOrder.foldl_leads
    (f := fun found e => DependencyOrder.visitWithin g g.size e found)
    (fun e he found h => DependencyOrder.visitWithin_leads wf (ht e he) (ht e he) h) start
  refine ⟨leads.ordered.first, fun n => ⟨fun hn => ?_, ?_⟩⟩
  · exact (leads.added n (Array.mem_toList_iff.1 hn)).resolve_left (by simp)
  · rintro ⟨e, he, hr⟩
    refine hr.closed (p := (· ∈ g.dependencies targets)) ?_ fun m hm =>
      leads.ordered.first.closed hm
    exact Array.mem_toList_iff.2 (leads.ordered.done e (ht e he) (leads.met e he))

theorem getElem?_rootsByName {name : String} :
    (g.rootsByName nodes)[name]? =
      (nodes.filterMap g.readRoot?).find? fun root => root.name = name := by
  have collect : (g.rootsByName nodes)[name]? = (∅ : Std.TreeMap String Root)[name]?.or
      ((nodes.filterMap g.readRoot?).find? fun root => root.name = name) := by
    unfold rootsByName
    generalize (∅ : Std.TreeMap String Root) = table
    induction nodes generalizing table with
    | nil => simp
    | cons e nodes ih =>
      rw [List.foldl_cons, ih]
      cases hread : g.readRoot? e with
      | none => simp [hread]
      | some root =>
        simp only [List.filterMap_cons_some hread, List.find?_cons,
          Std.TreeMap.getElem?_insertIfNew, Std.compare_eq_iff_eq]
        by_cases hname : root.name = name
        · subst hname
          cases hold : table[root.name]? with
          | none =>
            have hnew : root.name ∉ table := by simp [Std.TreeMap.mem_iff_isSome_getElem?, hold]
            simp [hnew]
          | some old =>
            have hmem : root.name ∈ table := by simp [Std.TreeMap.mem_iff_isSome_getElem?, hold]
            simp [hmem]
        · simp [hname]
  exact collect.trans (by simp)

end Graph

end BitvectorCode
