import BitvectorCode.Proofs.Constant.Bits
import BitvectorCode.Proofs.Rewrite.Passes
import BitvectorCode.Proofs.Rewrite.Reads

/-!
# What mirroring does

The pass that mirrors reads replaces every read of one symbol at a constant index inside a range,
and notes whether there was such a read. Where the indices are wide enough, the read at an index
becomes the read at the other end of the first range that holds it.
-/

namespace BitvectorCode

open BitvectorCode.Graph

namespace Tree

/-- A constant becomes the constant that `f` makes of it; any other tree stays. -/
def atConstant (f : Constant → Constant) : Tree → Tree
  | constant c => constant (f c)
  | t => t

/-- A constant index in one of the ranges goes to the other end of the first such range, keeping its
bits. -/
def mirrorIn (ranges : List ByteRange) (c : Constant) : Constant :=
  match ranges.find? (·.contains c.value) with
  | some range => ⟨range.low + range.high - c.value, c.bits⟩
  | none => c

/-- Replaces each read of `symbol` at a constant index inside a range by the mirrored read, once. -/
def swapBytes (symbol : String) (ranges : List ByteRange) : Tree → Tree :=
  mapReads fun root index =>
    read root (if root.name = symbol then index.atConstant (mirrorIn ranges) else index)

theorem atConstant_mapRoots {t : Tree} {f : Constant → Constant} {roots : Root → Root} :
    (t.atConstant f).mapRoots roots = (t.mapRoots roots).atConstant f := by
  cases t <;> rfl

end Tree

namespace ByteSwapper

variable {symbol : String} {ranges : List ByteRange} {c : Constant}

def target? (ranges : List ByteRange) (c : Constant) : Option Nat :=
  c.word?.bind fun value => (ranges.find? (·.contains value)).map (·.mirror value)

def mirrored (ranges : List ByteRange) (c : Constant) : Constant :=
  match target? ranges c with
  | some index => .ofNat index c.bits
  | none => c

def mirrorRead (symbol : String) (ranges : List ByteRange) (root : Root) (index : Tree) : Tree :=
  .read root (if root.name = symbol then index.atConstant (mirrored ranges) else index)

def mirrorStep (symbol : String) (ranges : List ByteRange) (t : Tree) : Except Error Tree :=
  .ok (t.atRead (mirrorRead symbol ranges))

/-- A read is mirrored when it is one of `symbol` at a constant index that is sent elsewhere. -/
def Mirrors (symbol : String) (ranges : List ByteRange) (root : Root) (index : Tree) : Prop :=
  root.name = symbol ∧ ∃ c, index = .constant c ∧ (target? ranges c).isSome

theorem target?_eq (words : ∀ range ∈ ranges, range.high < UInt64.size) :
    target? ranges c = (ranges.find? (·.contains c.value)).map (·.mirror c.value) := by
  unfold target? Constant.word?
  split
  · rfl
  · next hc =>
    have none : ranges.find? (·.contains c.value) = none := by
      refine List.find?_eq_none.2 fun range hrange hin => hc ?_
      simp only [ByteRange.contains, Bool.and_eq_true, decide_eq_true_eq] at hin
      exact Nat.lt_of_le_of_lt hin.2 (words range hrange)
    rw [none]
    rfl

/-- An index that is wide enough for the high end of its range is wide enough for every position in
it. -/
theorem mirrored_eq (words : ∀ range ∈ ranges, range.high < UInt64.size)
    (wide : ∀ range, ranges.find? (·.contains c.value) = some range → range.high < 2 ^ c.bits) :
    mirrored ranges c = Tree.mirrorIn ranges c := by
  unfold mirrored Tree.mirrorIn
  rw [target?_eq words]
  cases hfound : ranges.find? (·.contains c.value) with
  | none => rfl
  | some range =>
    have hin : range.contains c.value = true := by simpa using List.find?_some hfound
    have hmirror := ByteRange.mirror_mem hin
    have hhigh := wide range hfound
    simp only [ByteRange.contains, Bool.and_eq_true, decide_eq_true_eq] at hmirror
    have hfit : range.mirror c.value < 2 ^ c.bits := Nat.lt_of_le_of_lt hmirror.2 hhigh
    change Constant.ofNat (range.mirror c.value) c.bits = _
    rw [Constant.ofNat, lowBits_eq_mod, Nat.mod_eq_of_lt hfit, ByteRange.mirror, Nat.add_comm]

theorem mirrorRead_of_not_mirrors {root : Root} {index : Tree}
    (h : ¬ Mirrors symbol ranges root index) :
    mirrorRead symbol ranges root index = .read root index := by
  unfold mirrorRead
  split
  · next hname =>
    cases index with
    | constant c =>
      have htarget : target? ranges c = none := by simpa [Mirrors, hname] using h
      rw [Tree.atConstant, mirrored, htarget]
    | _ => rfl
  · rfl

theorem mirrorRead_of_target {root : Root} {index : Nat} (hname : root.name = symbol)
    (htarget : target? ranges c = some index) :
    mirrorRead symbol ranges root (.constant c) = .read root (.constant (.ofNat index c.bits)) := by
  rw [mirrorRead, if_pos hname, Tree.atConstant, mirrored, htarget]

variable {g : Graph} {swapped : Bool} {e index : NodeId} {root : RootId}

theorem callback_of_no_read (h : (g.expr e).roots = []) :
    callback symbol ranges e ⟨g, swapped⟩ = .ok none ⟨g, swapped⟩ := by
  unfold callback
  rw [get_bind_apply]
  cases hx : g.expr e with
  | read root index => simp [hx, Expr.roots] at h
  | _ => rfl

theorem callback_of_not_mirrors (wf : g.WellFormed) (hx : g.expr e = .read root index)
    (hi : index < g.size) (h : ¬ Mirrors symbol ranges (g.root root) (g.tree index)) :
    callback symbol ranges e ⟨g, swapped⟩ = .ok none ⟨g, swapped⟩ := by
  unfold callback
  rw [get_bind_apply]
  simp only [hx]
  by_cases hname : (g.root root).name ≠ symbol
  · rw [if_pos hname]
    rfl
  rw [if_neg hname]
  cases hxi : g.expr index with
  | constant c =>
    have tree : g.tree index = .constant c := wf.tree_of_expr_constant hi hxi
    have htarget : target? ranges c = none := by simpa [Mirrors, not_not.1 hname, tree] using h
    unfold target? at htarget
    simp only [Expr.constant?, htarget]
    rfl
  | _ => rfl

theorem callback_of_target {target : Nat} (wf : g.WellFormed) (he : e < g.size)
    (hx : g.expr e = .read root index) (hname : (g.root root).name = symbol)
    (hxi : g.expr index = .constant c) (htarget : target? ranges c = some target) :
    Ensures (· = ⟨g, swapped⟩) (callback symbol ranges e)
      (fun new t => ∃ r, new = some r ∧ t.notes = true ∧
        t.graph.tree r = .read (g.root root) (.constant (.ofNat target c.bits)))
      fun _ _ => False := by
  apply Ensures.bind_get_self
  have hname : ¬ (g.root root).name ≠ symbol := not_not.2 hname
  unfold target? at htarget
  simp only [hx, if_neg hname, hxi, Expr.constant?, htarget]
  have hr : root < g.roots.size := wf.root_lt he (by simp [hx, Expr.roots])
  have hvalid : (Constant.ofNat target c.bits).Valid := Constant.ofNat_valid target c.bits
  apply (CallbackState.build_constant_ensures swapped wf hvalid).sure.bind
  rintro index' ⟨h, notes⟩ ⟨grown, -, hi, hindex⟩
  have hr' := Nat.lt_of_lt_of_le hr grown.isExtendedBy.roots_size_le
  have hread := CallbackState.build_read_ensures true grown.wellFormed hr' hi
  apply hread.sure.bind _ ⟨h, true⟩ rfl
  rintro r u ⟨more, hnotes, hlt, hnode⟩
  refine ⟨r, rfl, hnotes, ?_⟩
  have hold : u.graph.root root = g.root root := (grown.trans more).isExtendedBy.root_eq hr
  rw [more.wellFormed.tree_of_node hlt hnode, Expr.unfold, hold, more.tree_eq grown.wellFormed hi,
    grown.wellFormed.tree_of_node hi hindex, Expr.unfold]

theorem callback_mirrors (wf : g.WellFormed) (he : e < g.size) :
    Ensures (· = ⟨g, swapped⟩) (callback symbol ranges e)
      (fun new t => t.graph.tree (new.getD e) = (g.tree e).atRead (mirrorRead symbol ranges) ∧
        (t.notes = true ↔ swapped = true ∨ g.ReadsWith (Mirrors symbol ranges) e))
      fun _ _ => False := by
  have tree := wf.tree_eq he
  cases hx : g.expr e with
  | read root index =>
    have hi : index < g.size := wf.child_lt_size he (by simp [hx, Expr.children])
    rw [hx] at tree
    rw [readsWith_iff hx, tree]
    by_cases h : Mirrors symbol ranges (g.root root) (g.tree index)
    · obtain ⟨hname, c, hc, hsome⟩ := h
      obtain ⟨target, htarget⟩ := Option.isSome_iff_exists.1 hsome
      have hxi := wf.expr_of_tree_constant hi hc
      refine (callback_of_target wf he hx hname hxi htarget).weaken (fun _ h => h) ?_ fun _ _ h => h
      rintro _ t ⟨r, rfl, hnotes, htree⟩
      refine ⟨?_, iff_of_true hnotes (.inr ⟨hname, c, hc, hsome⟩)⟩
      rw [Option.getD_some, htree]
      change _ = mirrorRead symbol ranges (g.root root) (g.tree index)
      rw [hc, mirrorRead_of_target hname htarget]
    · rintro _ rfl
      rw [callback_of_not_mirrors wf hx hi h]
      refine ⟨?_, (or_iff_left h).symm⟩
      rw [Option.getD_none, tree]
      exact (mirrorRead_of_not_mirrors h).symm
  | _ =>
    rintro _ rfl
    rw [callback_of_no_read (by simp [hx, Expr.roots])]
    refine ⟨?_, (or_iff_left ?_).symm⟩
    · rw [Option.getD_none, tree, hx]
      rfl
    · rintro ⟨_, _, hx', -⟩
      cases hx.symm.trans hx'

theorem callback_steps (symbol : String) (ranges : List ByteRange) :
    (callback symbol ranges).Steps (fun _ _ => True) (mirrorStep symbol ranges) := by
  intro g swapped e wf _ he
  exact (callback_mirrors wf he).weaken (fun _ h => h) (fun _ _ h => congrArg Except.ok h.1.symm)
    fun _ _ h => h.elim

/-- Whether reads are mirrored at a node can be told before its index is rewritten, because
rewriting makes no constants and unmakes none. -/
theorem readsWith_rebuilt_iff {g₀ : Graph} {s : Pass Bool} {ids : List NodeId} {m : NodeId}
    (wf : g₀.WellFormed) (grown : g₀.Grows s.graph) (hm : Pass.Rebuilt g₀ s e ids m)
    (trees : Pass.RewritesTrees (mirrorStep symbol ranges) g₀ s) :
    s.graph.ReadsWith (Mirrors symbol ranges) m ↔ g₀.ReadsWith (Mirrors symbol ranges) e := by
  have hroots : (s.graph.expr m).roots = (g₀.expr e).roots := Expr.roots_of_withChildren? hm.expr
  cases hx : g₀.expr e with
  | read root index =>
    obtain ⟨index', hmx⟩ : ∃ index', s.graph.expr m = .read root index' :=
      Expr.eq_read_of_mem_roots (by rw [hroots, hx]; exact List.mem_singleton_self root)
    have entry : s.replacements[index]? = some index' := by
      have hchildren := hm.children
      rw [← Expr.children_of_withChildren? hm.expr, hx, hmx] at hchildren
      exact (List.forall₂_cons.1 hchildren).1
    have tree : s.graph.tree index' = (g₀.tree index).mapReads (mirrorRead symbol ranges) :=
      (Except.ok.inj ((Tree.rewriteUp_atRead _).symm.trans (trees index index' entry))).symm
    have hroot : s.graph.root root = g₀.root root :=
      grown.isExtendedBy.root_eq (wf.root_lt hm.lt (by simp [hx, Expr.roots]))
    have hconst : ∀ c, s.graph.tree index' = .constant c ↔ g₀.tree index = .constant c := by
      intro c
      rw [tree]
      exact Tree.mapReads_eq_constant_iff fun _ _ => Tree.noConfusion
    rw [readsWith_iff hmx, readsWith_iff hx, Mirrors, Mirrors, hroot]
    simp only [hconst]
  | _ =>
    refine iff_of_false ?_ ?_
    · rintro ⟨root, index, hmx, -⟩
      simp [hmx, hx, Expr.roots] at hroots
    · rintro ⟨_, _, hx', -⟩
      cases hx.symm.trans hx'

/-- A read was mirrored exactly when one of the nodes with an entry is such a read. -/
def Noted (symbol : String) (ranges : List ByteRange) (g₀ : Graph) (s : Pass Bool) : Prop :=
  s.notes = true ↔
    ∃ n, (∃ r : NodeId, s.replacements[n]? = some r) ∧ g₀.ReadsWith (Mirrors symbol ranges) n

theorem keeps_noted {g₀ : Graph} (wf : g₀.WellFormed) :
    Pass.Keeps (fun _ _ => True) (callback symbol ranges) g₀
      (fun s => Pass.RewritesTrees (mirrorStep symbol ranges) g₀ s ∧ Noted symbol ranges g₀ s)
      fun _ _ => False := by
  have trees :=
    Pass.keeps_rewritesTrees wf (callback_sound symbol ranges) (callback_steps symbol ranges)
  refine ⟨fun hs gh hids hrun => ⟨trees.grow ⟨hs.grows, hs.sound, hs.inv.1⟩ gh hids hrun, hs.inv.2⟩,
    ?_, fun _ _ _ _ h => h⟩
  intro s e ids m hs hm
  have rewritten := trees.step ⟨hs.grows, hs.sound, hs.inv.1⟩ hm
  refine (rewritten.and (callback_mirrors hs.grows.wellFormed hm.lt_size)).weaken (fun _ h => h) ?_
    fun _ _ h => h.2
  rintro new t ⟨htrees, -, hnotes⟩ grown
  refine ⟨htrees grown, ?_⟩
  simp only [Noted, Pass.exists_insert_iff, or_and_right, exists_or, exists_eq_left]
  have before : s.notes = true ↔ _ := hs.inv.2
  rw [hnotes, before, readsWith_rebuilt_iff wf hs.grows hm hs.inv.1, or_comm]

/-- A pass of mirroring replaces the reads of the tree, and its note says whether it replaced
any. -/
theorem rewrite_mirrors (symbol : String) (ranges : List ByteRange) {g : Graph} (wf : g.WellFormed)
    {e : NodeId} (he : e < g.size) :
    Ensures (· = ⟨g, ∅, false⟩) (Pass.rewrite (callback symbol ranges) e)
      (fun r t => g.Grows t.graph ∧ r < t.graph.size ∧
        t.graph.tree r = (g.tree e).mapReads (mirrorRead symbol ranges) ∧
        (t.notes = true ↔ (g.tree e).AnyRead (Mirrors symbol ranges)))
      fun _ _ => False := by
  have start : Pass.Holds (fun _ _ => True) g
      (fun s => Pass.RewritesTrees (mirrorStep symbol ranges) g s ∧ Noted symbol ranges g s)
      ⟨g, ∅, false⟩ :=
    ⟨wf.grows, Pass.sound_start trivial, remembered_empty, by simp [Noted]⟩
  have sound := callback_sound symbol ranges
  have pass := (Pass.rewrite_keeps sound (keeps_noted wf) wf he start).and
    (Pass.rewrite_entries sound wf he false trivial)
  refine pass.weaken (fun _ h => h) ?_ fun _ _ h => h.1
  rintro r t ⟨⟨-, ht, hr⟩, entries⟩
  have tree : t.graph.tree r = (g.tree e).mapReads (mirrorRead symbol ranges) :=
    (Except.ok.inj ((Tree.rewriteUp_atRead _).symm.trans (ht.inv.1 e r hr))).symm
  have noted : t.notes = true ↔ _ := ht.inv.2
  refine ⟨ht.grows, (ht.sound.replaced e r hr).2.1, tree, noted.trans ?_⟩
  rw [wf.anyRead_tree_iff he]
  simp only [entries]

/-- A read of the symbol whose index is too narrow for the range that holds it. -/
def TooNarrow (symbol : String) (ranges : List ByteRange) (root : Root) (index : Tree) : Prop :=
  ∃ c range, root.name = symbol ∧ index = .constant c ∧
    ranges.find? (·.contains c.value) = some range ∧ 2 ^ c.bits ≤ range.high

theorem mapReads_mirrorRead_eq_swapBytes {t : Tree}
    (words : ∀ range ∈ ranges, range.high < UInt64.size)
    (wide : ¬ t.AnyRead (TooNarrow symbol ranges)) :
    t.mapReads (mirrorRead symbol ranges) = t.swapBytes symbol ranges := by
  refine Tree.mapReads_congr (fun root index hwide => ?_) wide
  rw [mirrorRead]
  split
  · next hname =>
    refine congrArg (Tree.read root) ?_
    cases index with
    | constant c =>
      refine congrArg Tree.constant (mirrored_eq words fun range hfound => ?_)
      exact Nat.not_le.1 fun hle => hwide ⟨c, range, hname, rfl, hfound, hle⟩
    | _ => rfl
  · rfl

theorem mirrors_tree_iff {root : Root} (words : ∀ range ∈ ranges, range.high < UInt64.size)
    (wf : g.WellFormed) (hi : index < g.size) :
    Mirrors symbol ranges root (g.tree index) ↔ ∃ c range, root.name = symbol ∧
      g.expr index = .constant c ∧ ranges.find? (·.contains c.value) = some range := by
  constructor
  · rintro ⟨hname, c, hc, htarget⟩
    rw [target?_eq words, Option.isSome_map] at htarget
    obtain ⟨range, hfound⟩ := Option.isSome_iff_exists.1 htarget
    exact ⟨c, range, hname, wf.expr_of_tree_constant hi hc, hfound⟩
  · rintro ⟨c, range, hname, hc, hfound⟩
    refine ⟨hname, c, wf.tree_of_expr_constant hi hc, ?_⟩
    rw [target?_eq words, hfound]
    rfl

end ByteSwapper

end BitvectorCode
