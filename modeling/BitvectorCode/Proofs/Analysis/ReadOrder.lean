import BitvectorCode.Proofs.Analysis.Symbols
import BitvectorCode.Proofs.Graph.Structure
import Mathlib.Data.List.Forall2
import Mathlib.Data.List.Induction
import Mathlib.Data.List.Nodup

/-!
# The order in which reads are met

Written out as a tree, an expression has a place for every use of a read. A walk lists the nodes at
these places from the top down and from left to right, each when it is first met. So two expressions
of one structure have the same reads at the same places, but a byte that one of them stores once and
uses twice is listed once, and two reads of the byte are listed twice. Comparing the lists tells the
same of both where they meet a node again at the same places, and need not where they do not.
-/

namespace BitvectorCode

section Duplicates

variable {xs ys : List NodeId} {x : NodeId}

theorem eraseDups_concat : (xs ++ [x]).eraseDups = xs.eraseDups ++ if x ∈ xs then [] else [x] := by
  rw [List.eraseDups_append, List.cons_removeAll, List.nil_removeAll]
  by_cases hx : x ∈ xs <;> simp [hx, List.eraseDups_cons]

theorem nodup_eraseDups : xs.eraseDups.Nodup := by
  induction xs using List.reverseRecOn with
  | nil => simp
  | append_singleton xs x ih =>
    rw [eraseDups_concat]
    by_cases hx : x ∈ xs
    · simpa [hx] using ih
    · rw [if_neg hx, ← List.concat_eq_append, List.nodup_concat]
      exact ⟨mt List.mem_eraseDups.1 hx, ih⟩

theorem eraseDups_eq_self (h : xs.Nodup) : xs.eraseDups = xs := by
  induction xs using List.reverseRecOn with
  | nil => simp
  | append_singleton xs x ih =>
    rw [← List.concat_eq_append, List.nodup_concat] at h
    rw [eraseDups_concat, if_neg h.1, ih h.2]

theorem eraseDups_append_of_subset (h : ys ⊆ xs) : (xs ++ ys).eraseDups = xs.eraseDups := by
  have hys : ys.removeAll xs = [] := by
    rw [List.removeAll, List.filter_eq_nil_iff]
    intro y hy
    simpa using h hy
  rw [List.eraseDups_append, hys, List.eraseDups_nil, List.append_nil]

theorem eraseDups_eraseDups_append : (xs.eraseDups ++ ys).eraseDups = (xs ++ ys).eraseDups := by
  have hys : ys.removeAll xs.eraseDups = ys.removeAll xs := by
    simp [List.removeAll]
  rw [List.eraseDups_append, List.eraseDups_append, hys, eraseDups_eq_self nodup_eraseDups]

/-- For each place of a list, whether its node stands at an earlier place too. -/
def repeats (nodes : List NodeId) : List Bool := nodes.mapIdx fun i e => decide (e ∈ nodes.take i)

theorem repeats_concat : repeats (xs ++ [x]) = repeats xs ++ [decide (x ∈ xs)] := by
  have before : (xs.mapIdx fun i e => decide (e ∈ (xs ++ [x]).take i)) = repeats xs := by
    refine List.mapIdx_eq_mapIdx_iff.2 fun i hi => ?_
    rw [List.take_append_of_le_length (Nat.le_of_lt hi)]
  rw [repeats, List.mapIdx_concat, before, List.take_left]

/-- What a list without its repeated elements maps to is seen from what the list maps to and from
the places of the repetitions. -/
theorem map_eraseDups {α : Type} (f : NodeId → α) : xs.eraseDups.map f =
    ((xs.map f).zip (repeats xs)).filterMap fun (a, again) => if again then none else some a := by
  induction xs using List.reverseRecOn with
  | nil => rfl
  | append_singleton xs x ih =>
    have hlength : (xs.map f).length = (repeats xs).length := by simp [repeats]
    rw [eraseDups_concat, repeats_concat, List.map_append, List.map_append, List.zip_append hlength,
      List.filterMap_append, ih]
    by_cases hx : x ∈ xs <;> simp [hx]

end Duplicates

/-- The reads of a symbol in a tree, from the top down and from left to right. -/
def Tree.readsOf (symbol : String) : Tree → List Tree
  | constant _ => []
  | read root index =>
    (if root.name = symbol then [read root index] else []) ++ index.readsOf symbol
  | extract inner _ _ | zeroExtend inner _ | signExtend inner _ | not inner => inner.readsOf symbol
  | concat lhs rhs | binary _ lhs rhs | compare _ lhs rhs =>
    lhs.readsOf symbol ++ rhs.readsOf symbol
  | select cond ifTrue ifFalse =>
    cond.readsOf symbol ++ (ifTrue.readsOf symbol ++ ifFalse.readsOf symbol)

namespace Graph

variable {g : Graph} {symbol : String} {e n l l' r r' : NodeId}

def readPlacesWithin (g : Graph) (symbol : String) : (depth : Nat) → NodeId → List NodeId
  | 0, _ => []
  | depth + 1, e =>
    g.ownRead symbol e ++ (g.expr e).children.flatMap (g.readPlacesWithin symbol depth)

/-- The node at every place where an expression reads `symbol`, from the top down and from left to
right. A node that is used twice has two places. -/
def readPlaces (g : Graph) (symbol : String) (e : NodeId) : List NodeId :=
    g.readPlacesWithin symbol (e + 1) e

namespace WellFormed

variable (wf : g.WellFormed)
include wf

theorem readPlacesWithin_eq {depth depth' : Nat} (hd : e < depth) (hd' : e < depth') :
    g.readPlacesWithin symbol depth e = g.readPlacesWithin symbol depth' e := by
  induction depth generalizing depth' e with
  | zero => exact absurd hd (Nat.not_lt_zero e)
  | succ depth ih =>
    obtain ⟨depth', rfl⟩ : ∃ k, depth' = k + 1 := ⟨depth' - 1, by lia⟩
    rw [readPlacesWithin, readPlacesWithin]
    refine congrArg (g.ownRead symbol e ++ ·) (List.flatMap_congr fun child hc => ?_)
    have := wf.child_lt hc
    exact ih (by lia) (by lia)

theorem readPlaces_eq : g.readPlaces symbol e =
    g.ownRead symbol e ++ (g.expr e).children.flatMap (g.readPlaces symbol) := by
  rw [readPlaces, readPlacesWithin]
  refine congrArg (g.ownRead symbol e ++ ·) (List.flatMap_congr fun child hc => ?_)
  exact wf.readPlacesWithin_eq (wf.child_lt hc) (Nat.lt_succ_self child)

theorem mem_readPlaces_iff : n ∈ g.readPlaces symbol e ↔
    g.Reaches e n ∧ ∃ root index, g.expr n = .read root index ∧ (g.root root).name = symbol := by
  induction e using Nat.strong_induction_on with
  | _ e ih =>
    rw [wf.readPlaces_eq, List.mem_append, List.mem_flatMap, mem_ownRead_iff,
      reaches_iff, or_and_right]
    refine or_congr ?_ ?_
    · exact and_congr_right fun h => by rw [h]
    · simp only [← exists_and_right]
      constructor
      · rintro ⟨child, hc, hn⟩
        obtain ⟨hr, hread⟩ := (ih child (wf.child_lt hc)).1 hn
        exact ⟨child, ⟨hc, hr⟩, hread⟩
      · rintro ⟨child, ⟨hc, hr⟩, hread⟩
        exact ⟨child, hc, (ih child (wf.child_lt hc)).2 ⟨hr, hread⟩⟩

theorem map_tree_readPlaces (he : e < g.size) :
    (g.readPlaces symbol e).map g.tree = (g.tree e).readsOf symbol := by
  induction e using Nat.strong_induction_on with
  | _ e ih =>
    have below : ∀ child ∈ (g.expr e).children,
        (g.readPlaces symbol child).map g.tree = (g.tree child).readsOf symbol :=
      fun child hc => ih child (wf.child_lt hc) (wf.child_lt_size he hc)
    have htree := wf.tree_eq he
    rw [wf.readPlaces_eq, List.map_append, List.map_flatMap, ownRead, htree]
    cases hx : g.expr e <;> rw [hx] at htree below <;>
      simp only [Expr.children, List.mem_cons, List.not_mem_nil, or_false,
        forall_eq_or_imp, forall_eq] at below <;>
      simp [Expr.children, Expr.unfold, Tree.readsOf, below]
    case read r index =>
      split
      · rw [List.map_singleton, htree]
        rfl
      · rfl

end WellFormed

end Graph

namespace ReadWalk

variable {g : Graph} {walk walk' last : ReadWalk} {symbol : String} {e n bound : NodeId}
    {es : List NodeId}

/-- The walk is right, it is done with the marked nodes below `bound`, and it lists no read
twice. -/
structure Ready (g : Graph) (bound : NodeId) (walk : ReadWalk) : Prop where
  right : Right g walk
  closed : walk.ClosedBelow g bound
  nodup : ∀ symbol, (walk.readsOf symbol).Nodup

theorem Ready.start : Ready g bound (start g) :=
  ⟨.start, closedBelow_start, fun _ => List.nodup_nil⟩

theorem Ready.meet (h : Ready g bound walk) (he : e < g.size) (hb : e < bound)
    (hs : ¬ walk.Seen e) :
    Ready g e (walk.meet g e) := by
  refine ⟨h.right.meet he, h.closed.meet h.right he hb, fun symbol => ?_⟩
  have hnew : e ∉ walk.readsOf symbol :=
    fun hmem => hs ((h.right.mem_readsOf_iff symbol e).1 hmem).1
  have hown : (g.ownRead symbol e).Nodup := by
    unfold Graph.ownRead
    cases g.expr e with
    | read r index => by_cases hname : (g.root r).name = symbol <;> simp [hname]
    | _ => simp
  rw [readsOf_meet, List.nodup_append]
  refine ⟨h.nodup symbol, hown, fun a ha b hb hab => hnew ?_⟩
  rwa [← (Graph.mem_ownRead_iff.1 hb).1, ← hab]

/-- From `walk` to `walk'` the nodes `es` were visited: the reads at their places were listed, each
where it was met first. -/
structure Lists (g : Graph) (bound : NodeId) (es : List NodeId) (walk walk' : ReadWalk) : Prop where
  ready : Ready g bound walk'
  readsOf_eq : ∀ symbol,
    walk'.readsOf symbol = (walk.readsOf symbol ++ es.flatMap (g.readPlaces symbol)).eraseDups

theorem Lists.nil (h : Ready g bound walk) : Lists g bound [] walk walk :=
  ⟨h, fun symbol => by rw [List.flatMap_nil, List.append_nil, eraseDups_eq_self (h.nodup symbol)]⟩

theorem Lists.append {es' : List NodeId} (first : Lists g bound es walk walk')
    (rest : Lists g bound es' walk' last) : Lists g bound (es ++ es') walk last := by
  refine ⟨rest.ready, fun symbol => ?_⟩
  rw [rest.readsOf_eq, first.readsOf_eq, eraseDups_eraseDups_append, List.flatMap_append,
    List.append_assoc]

theorem foldl_lists {f : ReadWalk → NodeId → ReadWalk}
    (hf : ∀ e ∈ es, ∀ walk, Ready g bound walk → Lists g bound [e] walk (f walk e))
    (h : Ready g bound walk) : Lists g bound es walk (es.foldl f walk) := by
  induction es generalizing walk with
  | nil => exact .nil h
  | cons e es ih =>
    have first := hf e (by simp) walk h
    exact first.append (ih (fun e' he' => hf e' (by simp [he'])) first.ready)

/-- A visit lists the reads at the places of its node. Of a node that was visited before, they are
listed already. The induction is on the depth, which bounds the position of the node. -/
theorem visitWithin_lists (wf : g.WellFormed) {depth : Nat} (hd : e < depth) (he : e < g.size)
    (hb : e < bound) (h : Ready g bound walk) : Lists g bound [e] walk
    (visitWithin g depth e walk) := by
  induction depth generalizing e walk bound with
  | zero => exact absurd hd (Nat.not_lt_zero e)
  | succ depth ih =>
    have leads := visitWithin_leads wf hd he h.right
    suffices listed : ∀ symbol, (visitWithin g (depth + 1) e walk).readsOf symbol =
        (walk.readsOf symbol ++ g.readPlaces symbol e).eraseDups by
      refine ⟨⟨leads.right, leads.closed bound (by simpa using hb) h.closed, fun symbol => ?_⟩,
        fun symbol => ?_⟩
      · rw [listed]
        exact nodup_eraseDups
      · rw [listed, List.flatMap_singleton]
    intro symbol
    by_cases hs : walk.Seen e
    · have old : g.readPlaces symbol e ⊆ walk.readsOf symbol := by
        intro n hn
        obtain ⟨hr, hread⟩ := wf.mem_readPlaces_iff.1 hn
        exact (h.right.mem_readsOf_iff symbol n).2 ⟨h.closed.seen_of_reaches wf hb hs hr, hread⟩
      rw [visitWithin_of_seen hs, eraseDups_append_of_subset old,
        eraseDups_eq_self (h.nodup symbol)]
    · have below : ∀ child ∈ (g.expr e).children, child < e := fun child hc => wf.child_lt hc
      have rest := foldl_lists (f := fun walk child => visitWithin g depth child walk)
        (fun child hc walk hwalk =>
          ih (by have := below child hc; lia) (wf.child_lt_size he hc) (below child hc) hwalk)
        (h.meet he hb hs)
      rw [visitWithin_of_not_seen hs, rest.readsOf_eq, readsOf_meet, List.append_assoc,
        ← wf.readPlaces_eq]

end ReadWalk

namespace Graph

variable {g : Graph} {symbol : String} {e l l' r r' : NodeId}

namespace WellFormed

variable (wf : g.WellFormed)
include wf

theorem readsOf_eq (he : e < g.size) : g.readsOf symbol e = (g.readPlaces symbol e).eraseDups := by
  have listed : (g.readWalk e).readsOf symbol =
      ((ReadWalk.start g).readsOf symbol ++ [e].flatMap (g.readPlaces symbol)).eraseDups :=
    (ReadWalk.visitWithin_lists wf he he he .start).readsOf_eq symbol
  rw [readsOf, listed, List.flatMap_singleton]
  rfl

theorem lt_size_of_mem_readsOf (he : e < g.size) {n : NodeId} (hn : n ∈ g.readsOf symbol e) :
    n < g.size := by
  rw [wf.readsOf_eq he, List.mem_eraseDups, wf.mem_readPlaces_iff] at hn
  exact hn.1.lt_size wf he

/-- Two expressions have the same reads of a symbol exactly when their lists of reads have the same
trees. -/
theorem sameReads_iff (hl : l < g.size) (hr : r < g.size) :
    g.sameReads symbol l r = true ↔
      (g.readsOf symbol l).map g.tree = (g.readsOf symbol r).map g.tree := by
  rw [← List.forall₂_eq_eq_eq, List.forall₂_map_left_iff, List.forall₂_map_right_iff,
    List.forall₂_iff_zip]
  simp only [sameReads, Bool.and_eq_true, beq_iff_eq, List.all_eq_true, Prod.forall]
  refine and_congr_right fun _ => forall₂_congr fun a b => imp_congr_right fun hab => ?_
  obtain ⟨ha, hb⟩ := List.of_mem_zip hab
  exact wf.sameStructure_iff (wf.lt_size_of_mem_readsOf hl ha) (wf.lt_size_of_mem_readsOf hr hb)

end WellFormed

/-- In reading a symbol, the two expressions come upon a node again at the same places. -/
def RepeatsAlike (g : Graph) (symbol : String) (l r : NodeId) : Prop :=
  repeats (g.readPlaces symbol l) = repeats (g.readPlaces symbol r)

instance : Decidable (g.RepeatsAlike symbol l r) := inferInstanceAs (Decidable (_ = _))

theorem WellFormed.map_tree_readsOf_eq (wf : g.WellFormed) (hl : l < g.size) (hr : r < g.size)
    (htree : g.tree l = g.tree r) (again : g.RepeatsAlike symbol l r) :
    (g.readsOf symbol l).map g.tree = (g.readsOf symbol r).map g.tree := by
  rw [wf.readsOf_eq hl, wf.readsOf_eq hr, map_eraseDups, map_eraseDups, wf.map_tree_readPlaces hl,
    wf.map_tree_readPlaces hr, htree, again]

/-- Whether two expressions have the same reads of a symbol depends on their structure, and besides
only on the places at which they come upon a read again. So expressions of one structure that do so
at the same places can stand for each other, and have the same reads themselves. -/
theorem WellFormed.sameReads_of_repeatsAlike (wf : g.WellFormed) (hl : l < g.size)
    (hl' : l' < g.size) (hr : r < g.size) (hr' : r' < g.size) (sameL : g.sameStructure l l' = true)
    (sameR : g.sameStructure r r' = true) (againL : g.RepeatsAlike symbol l l')
    (againR : g.RepeatsAlike symbol r r') :
    g.sameReads symbol l r = g.sameReads symbol l' r' ∧ g.sameReads symbol l l' = true := by
  have left := wf.map_tree_readsOf_eq hl hl' ((wf.sameStructure_iff hl hl').1 sameL) againL
  have right := wf.map_tree_readsOf_eq hr hr' ((wf.sameStructure_iff hr hr').1 sameR) againR
  refine ⟨Bool.eq_iff_iff.2 ?_, (wf.sameReads_iff hl hl').2 left⟩
  rw [wf.sameReads_iff hl hr, wf.sameReads_iff hl' hr', left, right]

/-- A byte put beside itself, which is stored once in two of the concats and twice in the others. -/
theorem sameReads_of_shared_and_copied :
    let g : Graph :=
      { nodes := #[⟨.constant ⟨3, 32⟩, 32⟩, ⟨.read 0 0, 8⟩, ⟨.constant ⟨3, 32⟩, 32⟩, ⟨.read 0 2, 8⟩,
          ⟨.concat 1 1, 16⟩, ⟨.concat 3 3, 16⟩, ⟨.concat 1 3, 16⟩, ⟨.concat 3 1, 16⟩]
        roots := #[.symbolic "packet" 16] }
    g.WellFormed ∧ (4 < g.size ∧ 5 < g.size ∧ 6 < g.size ∧ 7 < g.size) ∧
      g.sameStructure 4 5 = true ∧
      g.sameStructure 6 7 = true ∧ g.RepeatsAlike "packet" 4 5 ∧ g.RepeatsAlike "packet" 6 7 ∧
      g.sameReads "packet" 4 6 = g.sameReads "packet" 5 7 ∧ g.sameReads "packet" 4 5 = true := by
  intro g
  have wf : g.WellFormed := by decide +kernel
  have sizes : 4 < g.size ∧ 5 < g.size ∧ 6 < g.size ∧ 7 < g.size := by decide
  have sameL : g.sameStructure 4 5 = true := by decide +kernel
  have sameR : g.sameStructure 6 7 = true := by decide +kernel
  have againL : g.RepeatsAlike "packet" 4 5 := by decide +kernel
  have againR : g.RepeatsAlike "packet" 6 7 := by decide +kernel
  exact ⟨wf, sizes, sameL, sameR, againL, againR,
    wf.sameReads_of_repeatsAlike sizes.1 sizes.2.1 sizes.2.2.1 sizes.2.2.2
      sameL sameR againL againR⟩

/-- Of two concats of one structure, one comes upon its byte again and the other reads the byte from
another node. So one has the same reads as itself, and not as the other. -/
theorem sameReads_of_shared_byte :
    let g : Graph :=
      { nodes := #[⟨.constant ⟨3, 32⟩, 32⟩, ⟨.read 0 0, 8⟩, ⟨.concat 1 1, 16⟩,
          ⟨.constant ⟨3, 32⟩, 32⟩, ⟨.read 0 3, 8⟩, ⟨.constant ⟨3, 32⟩, 32⟩, ⟨.read 0 5, 8⟩,
          ⟨.concat 4 6, 16⟩]
        roots := #[.symbolic "packet_chunks" 64] }
    g.WellFormed ∧ g.sameStructure 2 2 = true ∧ g.sameStructure 2 7 = true ∧
      g.sameReads "packet_chunks" 2 2 = true ∧ g.sameReads "packet_chunks" 2 7 = false := by
  decide +kernel

end Graph

end BitvectorCode
