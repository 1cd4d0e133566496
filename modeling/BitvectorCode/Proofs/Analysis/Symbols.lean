import BitvectorCode.Analysis.Symbols
import BitvectorCode.Proofs.Graph.Reachability

/-!
# What a walk over the reads meets

A walk marks the nodes below its expression and no others. While it goes down, the nodes it is still
at work on lie above the one it is at, so below that one the children of every marked node are
marked. The symbols of an expression are then exactly the names of the roots that it reads.
-/

namespace BitvectorCode

namespace Graph

variable {g : Graph} {symbol : String} {e n : NodeId}

/-- The node itself, if it reads `symbol`. -/
def ownRead (g : Graph) (symbol : String) (e : NodeId) : List NodeId :=
  match g.expr e with
  | .read r _ => if (g.root r).name = symbol then [e] else []
  | _ => []

theorem mem_ownRead_iff : n ∈ g.ownRead symbol e ↔
    n = e ∧ ∃ root index, g.expr e = .read root index ∧ (g.root root).name = symbol := by
  unfold ownRead
  cases g.expr e with
  | read r index => by_cases hname : (g.root r).name = symbol <;> simp [hname]
  | _ => simp

end Graph

namespace ReadWalk

variable {g : Graph} {walk walk' last : ReadWalk} {e n bound : NodeId}

def Seen (walk : ReadWalk) (n : NodeId) : Prop := walk.seen.getD n false = true

theorem visitWithin_of_not_seen {depth : Nat} (h : ¬ walk.Seen e) :
    visitWithin g (depth + 1) e walk =
      (g.expr e).children.foldl (fun walk child => visitWithin g depth child walk)
      (walk.meet g e) := by
  rw [visitWithin]
  exact if_neg h

theorem visitWithin_of_seen {depth : Nat} (h : walk.Seen e) :
    visitWithin g (depth + 1) e walk = walk := by
  rw [visitWithin]
  exact if_pos h

theorem readsOf_record {name symbol : String} : (walk.record name e).readsOf symbol =
    walk.readsOf symbol ++ if name = symbol then [e] else [] := by
  unfold readsOf record
  rw [Std.TreeMap.getD_alter]
  simp only [Std.compare_eq_iff_eq]
  split
  · next hname =>
    subst hname
    simp [Std.TreeMap.getD_eq_getD_getElem?]
  · simp

theorem mem_symbols_record_iff {name symbol : String} :
    symbol ∈ (walk.record name e).symbols ↔ name = symbol ∨ symbol ∈ walk.symbols := by
  simp [record, Std.TreeSet.mem_insert]

theorem readsOf_meet {symbol : String} :
    (walk.meet g e).readsOf symbol = walk.readsOf symbol ++ g.ownRead symbol e := by
  unfold meet Graph.ownRead
  cases g.expr e with
  | read r index => exact readsOf_record
  | _ => exact (List.append_nil _).symm

/-- A walk has a mark for each node of the graph, and has recorded the reads among the marked nodes
under the names of their roots. Its symbols are the names that have reads. -/
structure Right (g : Graph) (walk : ReadWalk) : Prop where
  size_eq : walk.seen.size = g.size
  mem_readsOf_iff : ∀ name n, n ∈ walk.readsOf name ↔
    walk.Seen n ∧ ∃ root index, g.expr n = .read root index ∧ (g.root root).name = name
  mem_symbols_iff : ∀ name, name ∈ walk.symbols ↔ ∃ n, n ∈ walk.readsOf name

theorem seen_meet : (walk.meet g e).seen = walk.seen.setIfInBounds e true := by
  unfold meet
  cases g.expr e <;> rfl

theorem seen_meet_iff (hw : walk.seen.size = g.size) (he : e < g.size) :
    (walk.meet g e).Seen n ↔ n = e ∨ walk.Seen n := by
  have he : e < walk.seen.size := hw ▸ he
  by_cases hn : e = n
  · simp [Seen, seen_meet, Array.getD_eq_getD_getElem?, ← hn, he]
  · simp [Seen, seen_meet, Array.getD_eq_getD_getElem?, Array.getElem?_setIfInBounds_ne hn,
      Ne.symm hn]

theorem mem_symbols_meet_iff {symbol : String} :
    symbol ∈ (walk.meet g e).symbols ↔ symbol ∈ walk.symbols ∨ g.ownRead symbol e ≠ [] := by
  unfold meet Graph.ownRead
  cases g.expr e with
  | read r index => simp [mem_symbols_record_iff, or_comm]
  | _ => simp

theorem Right.meet (hw : Right g walk) (he : e < g.size) : Right g (walk.meet g e) where
  size_eq := by rw [seen_meet, Array.size_setIfInBounds, hw.size_eq]
  mem_readsOf_iff := by
    intro name n
    rw [readsOf_meet, List.mem_append, hw.mem_readsOf_iff, Graph.mem_ownRead_iff,
      seen_meet_iff hw.size_eq he, or_and_right, or_comm]
    exact or_congr_left (and_congr_right fun h => by rw [h])
  mem_symbols_iff := by
    intro name
    simp only [mem_symbols_meet_iff, readsOf_meet, List.mem_append, exists_or, hw.mem_symbols_iff,
      ← List.isEmpty_eq_false_iff, List.isEmpty_eq_false_iff_exists_mem]

/-- Below `bound`, the children of every marked node are marked. -/
def ClosedBelow (g : Graph) (bound : NodeId) (walk : ReadWalk) : Prop :=
  ∀ n < bound, walk.Seen n → ∀ child ∈ (g.expr n).children, walk.Seen child

theorem ClosedBelow.seen_of_reaches (hc : walk.ClosedBelow g bound) (wf : g.WellFormed)
    (hb : e < bound) (he : walk.Seen e) (hr : g.Reaches e n) : walk.Seen n := by
  have both : n < bound ∧ walk.Seen n := by
    refine hr.closed (p := fun n => n < bound ∧ walk.Seen n) ⟨hb, he⟩ fun m hm child hchild => ?_
    exact ⟨Nat.lt_trans (wf.child_lt hchild) hm.1, hc m hm.1 hm.2 child hchild⟩
  exact both.2

/-- When a node is met, its children come next, so only what is below it is sure to be done. -/
theorem ClosedBelow.meet (hc : walk.ClosedBelow g bound) (hw : Right g walk) (he : e < g.size)
    (hb : e < bound) : (walk.meet g e).ClosedBelow g e := by
  have first : ∀ n, (walk.meet g e).Seen n ↔ n = e ∨ walk.Seen n :=
    fun n => seen_meet_iff hw.size_eq he
  intro n hlt hn child hchild
  have hn := ((first n).1 hn).resolve_left (Nat.ne_of_lt hlt)
  exact (first child).2 (.inr (hc n (Nat.lt_trans hlt hb) hn child hchild))

/-- From `walk` to `walk'` the nodes `es` were visited: no mark is lost, what is new is below one of
them, and nothing is left half done. -/
structure Leads (g : Graph) (es : List NodeId) (walk walk' : ReadWalk) : Prop where
  right : Right g walk'
  kept : ∀ n, walk.Seen n → walk'.Seen n
  met : ∀ e ∈ es, walk'.Seen e
  added : ∀ n, walk'.Seen n → walk.Seen n ∨ ∃ e ∈ es, g.Reaches e n
  closed : ∀ bound, (∀ e ∈ es, e < bound) → walk.ClosedBelow g bound → walk'.ClosedBelow g bound

theorem Leads.nil (hw : Right g walk) : Leads g [] walk walk :=
  ⟨hw, fun _ h => h, by simp, fun _ h => .inl h, fun _ _ h => h⟩

theorem Leads.cons {es : List NodeId} (first : Leads g [e] walk walk')
    (rest : Leads g es walk' last) :
    Leads g (e :: es) walk last where
  right := rest.right
  kept := fun n hn => rest.kept n (first.kept n hn)
  met := List.forall_mem_cons.2 ⟨rest.kept e (first.met e (by simp)), rest.met⟩
  added := by
    intro n hn
    rcases rest.added n hn with hn | ⟨e', he', hn⟩
    · refine (first.added n hn).imp_right ?_
      rintro ⟨_, he, hn⟩
      exact ⟨e, by simp, List.mem_singleton.1 he ▸ hn⟩
    · exact .inr ⟨e', by simp [he'], hn⟩
  closed := fun bound hb hc =>
    have hb := List.forall_mem_cons.1 hb
    rest.closed bound hb.2 (first.closed bound (by simpa using hb.1) hc)

theorem foldl_leads {f : ReadWalk → NodeId → ReadWalk} {es : List NodeId}
    (hf : ∀ e ∈ es, ∀ walk, Right g walk → Leads g [e] walk (f walk e)) (hw : Right g walk) :
    Leads g es walk (es.foldl f walk) := by
  induction es generalizing walk with
  | nil => exact .nil hw
  | cons e es ih =>
    have first := hf e (by simp) walk hw
    exact first.cons (ih (fun e' he' => hf e' (by simp [he'])) first.right)

/-- A visit leads to every node below its own. The induction is on the depth, which bounds the
position of the node. -/
theorem visitWithin_leads (wf : g.WellFormed) {depth : Nat} (hd : e < depth) (he : e < g.size)
    (hw : Right g walk) : Leads g [e] walk (visitWithin g depth e walk) := by
  induction depth generalizing e walk with
  | zero => exact absurd hd (Nat.not_lt_zero e)
  | succ depth ih =>
    by_cases hs : walk.Seen e
    · rw [visitWithin_of_seen hs]
      exact ⟨hw, fun _ h => h, by simpa using hs, fun _ h => .inl h, fun _ _ h => h⟩
    rw [visitWithin_of_not_seen hs]
    have below : ∀ child ∈ (g.expr e).children, child < e := fun child hc => wf.child_lt hc
    have rest := foldl_leads (f := fun walk child => visitWithin g depth child walk)
      (fun child hc walk hw => ih (by have := below child hc; lia) (wf.child_lt_size he hc) hw)
      (hw.meet he)
    have first : ∀ n, (walk.meet g e).Seen n ↔ n = e ∨ walk.Seen n :=
      fun n => seen_meet_iff hw.size_eq he
    refine ⟨rest.right, fun n hn => rest.kept n ((first n).2 (.inr hn)),
      by simpa using rest.kept e ((first e).2 (.inl rfl)), fun n hn => ?_,
      fun bound hb hc n hlt hn => ?_⟩
    · rcases rest.added n hn with hn | ⟨child, hchild, hn⟩
      · rcases (first n).1 hn with rfl | hn
        · exact .inr ⟨n, by simp, .refl n⟩
        · exact .inl hn
      · exact .inr ⟨e, by simp, .of_child hchild hn⟩
    · have start := hc.meet hw he (hb e (by simp))
      rcases Nat.lt_trichotomy n e with hne | rfl | hne
      · exact rest.closed e below start n hne hn
      · exact rest.met
      · rcases rest.added n hn with hn | ⟨child, hchild, hreach⟩
        · have hn := ((first n).1 hn).resolve_left (Nat.ne_of_gt hne)
          exact fun child hchild =>
            rest.kept child ((first child).2 (.inr (hc n hlt hn child hchild)))
        · have := hreach.le wf
          have := below child hchild
          lia

def start (g : Graph) : ReadWalk := { seen := (#[] : Array Bool).rightpad g.size false }

theorem not_seen_start : ¬ (start g).Seen n := by
  by_cases hn : n < g.size <;> simp [start, Seen, Array.getD_eq_getD_getElem?, Array.rightpad, hn]

theorem Right.start : Right g (start g) :=
  ⟨by simp [ReadWalk.start, Array.rightpad],
    fun name n => iff_of_false (by simp [ReadWalk.start, readsOf]) fun h => not_seen_start h.1,
    fun name => by simp [ReadWalk.start, readsOf]⟩

theorem closedBelow_start : (start g).ClosedBelow g bound := fun _ _ hn => absurd hn not_seen_start

end ReadWalk

namespace Graph

variable {g : Graph} {e : NodeId}

/-- The symbols of an expression are the names of the roots that its tree reads. -/
theorem WellFormed.mem_symbols_iff (wf : g.WellFormed) (he : e < g.size) {name : String} :
    name ∈ g.symbols e ↔ (g.tree e).AnyRead fun root _ => root.name = name := by
  have leads : ReadWalk.Leads g [e] (.start g) (g.readWalk e) :=
    ReadWalk.visitWithin_leads wf he he .start
  have closed := leads.closed g.size (by simpa using he) ReadWalk.closedBelow_start
  have seen : ∀ n, (g.readWalk e).Seen n ↔ g.Reaches e n := by
    refine fun n => ⟨fun hn => ?_, closed.seen_of_reaches wf he (leads.met e (by simp))⟩
    simpa using (leads.added n hn).resolve_left ReadWalk.not_seen_start
  rw [symbols, leads.right.mem_symbols_iff, wf.anyRead_tree_iff he]
  simp only [leads.right.mem_readsOf_iff, seen, ReadsWith]

end Graph

end BitvectorCode
