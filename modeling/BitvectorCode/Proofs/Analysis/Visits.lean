import BitvectorCode.Proofs.Analysis.ReadOrder

/-!
# Walks over several expressions

A walk that goes on over further expressions passes over what it has already seen. After any number
of visits its symbols are the names of the roots that the expressions read, and the reads of a root
are listed as they are met in all the expressions, written out one after the other. The graph may
grow between the visits.
-/

namespace BitvectorCode

namespace ReadWalk

variable {g h : Graph} {walk : ReadWalk} {es : List NodeId} {e n : NodeId} {name : String}

def roomFor (g : Graph) (walk : ReadWalk) : ReadWalk :=
    { walk with seen := walk.seen.rightpad g.size false }

/-- The walk has visited the expressions `es` in this order. The graph may have grown on the way,
and is `g` in the end. -/
inductive Visited : Graph → List NodeId → ReadWalk → Prop
  | start {g : Graph} (wf : g.WellFormed) : Visited g [] {}
  | grow {g h : Graph} {es : List NodeId} {walk : ReadWalk} (before : Visited g es walk)
      (grown : g.Grows h) :
      Visited h es walk
  | visit {g : Graph} {es : List NodeId} {walk : ReadWalk} {e : NodeId} (before : Visited g es walk)
      (he : e < g.size) : Visited g (es ++ [e]) (walk.visit g e)

theorem visited_foldl (wf : g.WellFormed) (hes : ∀ e ∈ es, e < g.size) :
    Visited g es (es.foldl (fun walk e => walk.visit g e) {}) := by
  induction es using List.reverseRecOn with
  | nil => exact .start wf
  | append_singleton es e ih =>
    rw [List.foldl_append]
    exact (ih fun e' he' => hes e' (by simp [he'])).visit (hes e (by simp))

theorem seen_roomFor_iff : (walk.roomFor g).Seen n ↔ walk.Seen n := by
  simp only [Seen, roomFor, Array.rightpad, Array.getD_eq_getD_getElem?]
  by_cases hn : n < walk.seen.size
  · rw [Array.getElem?_append_left hn]
  · have hle := Nat.not_lt.1 hn
    rw [Array.getElem?_append_right hle, Array.getElem?_eq_none hle, Array.getElem?_replicate]
    split <;> rfl

theorem Right.lt_size (hw : Right g walk) (hn : walk.Seen n) : n < g.size := by
  by_contra hge
  have none : walk.seen[n]? = none := Array.getElem?_eq_none (hw.size_eq ▸ Nat.not_lt.1 hge)
  simp [Seen, Array.getD_eq_getD_getElem?, none] at hn

theorem roomFor_of_size (hs : walk.seen.size = g.size) : walk.roomFor g = walk := by
  simp [roomFor, Array.rightpad, hs]

theorem Right.grow (hw : Right g (walk.roomFor g)) (wf : g.WellFormed) (gh : g.Grows h) :
    Right h (walk.roomFor h) := by
  refine ⟨?_, fun name n => ?_, hw.mem_symbols_iff⟩
  · have hs := hw.size_eq
    have hle := gh.size_le
    simp only [roomFor, Array.rightpad, Array.size_append, Array.size_replicate] at hs ⊢
    omega
  · have old := hw.mem_readsOf_iff name n
    rw [seen_roomFor_iff] at old ⊢
    refine old.trans (and_congr_right fun hn => ?_)
    have hlt := hw.lt_size (seen_roomFor_iff.2 hn)
    rw [gh.expr_eq hlt]
    refine exists₂_congr fun root index => and_congr_right fun hx => ?_
    have hroot : root < g.roots.size := wf.root_lt hlt (by simp [hx, Expr.roots])
    rw [gh.isExtendedBy.root_eq hroot]

end ReadWalk

theorem Graph.Grows.readPlaces_eq {g h : Graph} {symbol : String} {e : NodeId} (gh : g.Grows h)
    (wf : g.WellFormed) (he : e < g.size) : h.readPlaces symbol e = g.readPlaces symbol e := by
  induction e using Nat.strong_induction_on with
  | _ e ih =>
    have own : h.ownRead symbol e = g.ownRead symbol e := by
      unfold ownRead
      rw [gh.expr_eq he]
      cases hx : g.expr e with
      | read root index =>
        have hroot : root < g.roots.size := wf.root_lt he (by simp [hx, Expr.roots])
        simp only [gh.isExtendedBy.root_eq hroot]
      | _ => rfl
    rw [wf.readPlaces_eq, gh.wellFormed.readPlaces_eq, own, gh.expr_eq he]
    exact congrArg (g.ownRead symbol e ++ ·) (List.flatMap_congr fun child hc =>
      ih child (wf.child_lt hc) (wf.child_lt_size he hc))

namespace ReadWalk

variable {g h : Graph} {walk : ReadWalk} {es : List NodeId} {e n : NodeId} {name : String}

/-- The graph is well formed, and the walk has listed the reads of the expressions `es`, which are
in it. -/
structure HasListed (g : Graph) (es : List NodeId) (walk : ReadWalk) : Prop where
  wellFormed : g.WellFormed
  lt_size : ∀ e ∈ es, e < g.size
  lists : Lists g g.size es (start g) (walk.roomFor g)

theorem HasListed.start (wf : g.WellFormed) : HasListed g [] {} := ⟨wf, by simp, .nil .start⟩

theorem HasListed.grow (listed : HasListed g es walk) (gh : g.Grows h) : HasListed h es walk := by
  have wf := listed.wellFormed
  have ready := listed.lists.ready
  have right := ready.right.grow wf gh
  refine ⟨gh.wellFormed, fun e he => gh.lt_size (listed.lt_size e he), ⟨right, ?_, ready.nodup⟩, ?_⟩
  · intro n _ hn child hchild
    rw [seen_roomFor_iff] at hn ⊢
    have hlt := ready.right.lt_size (seen_roomFor_iff.2 hn)
    rw [gh.expr_eq hlt] at hchild
    exact seen_roomFor_iff.1 (ready.closed n hlt (seen_roomFor_iff.2 hn) child hchild)
  · intro symbol
    have same : es.flatMap (h.readPlaces symbol) = es.flatMap (g.readPlaces symbol) :=
      List.flatMap_congr fun e he => gh.readPlaces_eq wf (listed.lt_size e he)
    rw [same]
    exact listed.lists.readsOf_eq symbol

theorem HasListed.visit (listed : HasListed g es walk) (he : e < g.size) :
    HasListed g (es ++ [e]) (walk.visit g e) := by
  have step : Lists g g.size [e] (walk.roomFor g) (walk.visit g e) :=
    visitWithin_lists listed.wellFormed he he he listed.lists.ready
  refine ⟨listed.wellFormed, ?_, ?_⟩
  · simpa [or_imp, forall_and, he] using listed.lt_size
  · rw [roomFor_of_size step.ready.right.size_eq]
    exact listed.lists.append step

theorem Visited.hasListed (h : Visited g es walk) : HasListed g es walk := by
  induction h with
  | start wf => exact .start wf
  | grow before grown ih => exact ih.grow grown
  | visit before he ih => exact ih.visit he

/-- After any visits the symbols are the names of the roots that the expressions read, and of these
names the reads were recorded. The reads of a name are listed once each, in the order in which they
are met from the top down and from left to right, one expression after the other. -/
theorem Visited.records (visited : Visited g es walk) :
    (∀ name, name ∈ walk.symbols ↔ ∃ e ∈ es, ∃ n, g.Reaches e n ∧
      ∃ root index, g.expr n = .read root index ∧ (g.root root).name = name) ∧
    (∀ name, name ∈ walk.symbols ↔ walk.readsOf name ≠ []) ∧
    ∀ name, (walk.readsOf name).Nodup ∧
      (∀ n, n ∈ walk.readsOf name ↔ ∃ e ∈ es, g.Reaches e n ∧
        ∃ root index, g.expr n = .read root index ∧ (g.root root).name = name) ∧
      walk.readsOf name = (es.flatMap (g.readPlaces name)).eraseDups := by
  have listed := visited.hasListed
  have reads : ∀ name, walk.readsOf name = (es.flatMap (g.readPlaces name)).eraseDups :=
    fun name => listed.lists.readsOf_eq name
  have mem : ∀ name n, n ∈ walk.readsOf name ↔ ∃ e ∈ es, g.Reaches e n ∧
      ∃ root index, g.expr n = .read root index ∧ (g.root root).name = name := by
    intro name n
    simp only [reads, List.mem_eraseDups, List.mem_flatMap, listed.wellFormed.mem_readPlaces_iff]
  have recorded : ∀ name, name ∈ walk.symbols ↔ ∃ n, n ∈ walk.readsOf name :=
    listed.lists.ready.right.mem_symbols_iff
  refine ⟨fun name => ?_, fun name => ?_, fun name => ⟨?_, mem name, reads name⟩⟩
  · simp only [recorded, mem]
    exact ⟨fun ⟨n, e, he, hn⟩ => ⟨e, he, n, hn⟩, fun ⟨e, he, n, hn⟩ => ⟨n, e, he, hn⟩⟩
  · rw [recorded, ne_eq, List.eq_nil_iff_forall_not_mem, not_forall_not]
  · rw [reads]
    exact nodup_eraseDups

/-- A byte at an index that is a byte itself, beside that one, and then a byte of another root at
the first of these, which was added between the visits. -/
theorem records_of_two_visits :
    let g : Graph :=
      { nodes := #[⟨.constant ⟨1, 8⟩, 8⟩, ⟨.read 0 0, 8⟩, ⟨.read 0 1, 8⟩, ⟨.concat 2 1, 16⟩]
        roots := #[.symbolic "packet" 16, .symbolic "table" 4] }
    let h := g.push ⟨.read 1 2, 8⟩
    let walk := (visit {} g 3).visit h 4
    Visited h [3, 4] walk ∧ "table" ∈ walk.symbols ∧ walk.readsOf "packet" = [2, 1] ∧
      walk.readsOf "table" = [4] := by
  intro g h walk
  have wf : g.WellFormed := by decide +kernel
  have grown : g.Grows h := wf.grows_push_read (by decide) (by decide)
  have visited : Visited h [3, 4] walk :=
    .visit (.grow (.visit (.start wf) (by decide : 3 < g.size)) grown) (by decide : 4 < h.size)
  obtain ⟨-, recorded, listed⟩ := visited.records
  have packet : walk.readsOf "packet" = [2, 1] := (listed "packet").2.2.trans (by decide +kernel)
  have table : walk.readsOf "table" = [4] := (listed "table").2.2.trans (by decide +kernel)
  exact ⟨visited, (recorded "table").2 (by simp [table]), packet, table⟩

end ReadWalk

end BitvectorCode
