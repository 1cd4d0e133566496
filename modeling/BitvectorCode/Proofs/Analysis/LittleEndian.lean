import BitvectorCode.Analysis.Shape
import BitvectorCode.Proofs.Code.Meaning
import BitvectorCode.Proofs.Graph.ByteRun
import Mathlib.Data.List.Nodup
import Mathlib.Data.List.Perm.Subperm

/-!
# Little-endian reads

The bytes that an expression reads are collected node by node, and a shared node is asked about
once. What comes out are the indices of the leaves from left to right, so the shape is found exactly
where the leaves are a run of bytes from the first byte on, in whatever way concats put them
together. A run has the value of its bytes, and no other part of its shape matters.
-/

namespace BitvectorCode

theorem mapM_eq_some_iff {α β : Type} {f : α → Option β} {xs : List α} {ys : List β} :
    xs.mapM f = some ys ↔ xs.map f = ys.map some := by
  induction xs generalizing ys with
  | nil => cases ys <;> simp
  | cons x xs ih => cases ys <;> simp [List.mapM_cons, Option.bind_eq_some_iff, ← ih]

namespace Graph

variable {g : Graph} {e high low : NodeId} {name : String}

def leafIndices? (g : Graph) (e : NodeId) : Option (List Nat) :=
  ((g.leaves e).map Prod.snd).mapM g.readIndex?

theorem leafIndices?_of_not_isConcat (hc : ¬ (g.expr e).isConcat) :
    g.leafIndices? e = (g.readIndex? e).map ([·]) := by
  rw [leafIndices?, leaves_of_not_isConcat hc, List.map_cons, List.mapM_cons]
  cases g.readIndex? e <;> rfl

theorem WellFormed.leafIndices?_of_concat (wf : g.WellFormed) (hx : g.expr e = .concat high low) :
    g.leafIndices? e =
      (g.leafIndices? high).bind fun left => (g.leafIndices? low).map (left ++ ·) := by
  have leaves : (g.leaves e).map Prod.snd =
      (g.leaves high).map Prod.snd ++ (g.leaves low).map Prod.snd := by
    simp [wf.leaves_of_concat hx, Function.comp_def]
  rw [leafIndices?, leaves, List.mapM_append]
  simp only [Option.map_eq_bind, leafIndices?]
  rfl

theorem bytesReadWithin_returns (wf : g.WellFormed) {depth : Nat} (hd : e < depth) :
    Returns (Remembered fun e bytes => bytes = (g.leafIndices? e).map List.toArray)
      (g.bytesReadWithin depth e) ((g.leafIndices? e).map List.toArray) := by
  induction depth generalizing e with
  | zero => exact absurd hd (Nat.not_lt_zero e)
  | succ depth ih =>
    apply Returns.remember
    cases hx : g.expr e with
    | concat high low =>
      have hhigh : high < e := wf.child_lt (by simp [hx, Expr.children])
      have hlow : low < e := wf.child_lt (by simp [hx, Expr.children])
      have left := ih (show high < depth by lia)
      have right := ih (show low < depth by lia)
      rw [wf.leafIndices?_of_concat hx]
      apply left.bind
      cases g.leafIndices? high with
      | none => exact .pure
      | some left =>
        apply right.bind
        cases g.leafIndices? low with
        | none => exact .pure
        | some right =>
          have joined : ((some right).map (left ++ ·)).map List.toArray =
              some (left.toArray ++ right.toArray) := by simp
          rw [Option.bind_some, joined]
          exact .pure
    | read r index =>
      rw [leafIndices?_of_not_isConcat (by rw [hx]; exact Bool.false_ne_true)]
      cases g.readIndex? e <;> exact .pure
    | _ =>
      rw [leafIndices?_of_not_isConcat (by rw [hx]; exact Bool.false_ne_true), readIndex?, hx]
      exact .pure

theorem WellFormed.bytesRead_eq (wf : g.WellFormed) (he : e < g.size) :
    g.bytesRead e = g.leafIndices? e := by
  have found := (bytesReadWithin_returns wf he ∅ remembered_empty).1
  change (g.bytesReadWithin g.size e ∅).1.map Array.toList = _
  rw [found]
  cases g.leafIndices? e <;> rfl

theorem byteRead?_eq_some_iff_readIndex? {i : Nat} : g.byteRead? e = some (name, i) ↔
    (∃ root, g.readRoot? e = some root ∧ root.name = name) ∧ g.readIndex? e = some i := by
  unfold byteRead?
  cases g.readRoot? e <;> cases g.readIndex? e <;> simp

theorem map_byteRead?_iff {leaves : List NodeId} {indices : List Nat} :
    leaves.map g.byteRead? = indices.map (fun i => some (name, i)) ↔
      leaves.mapM g.readIndex? = some indices ∧
        ∀ leaf ∈ leaves, ∃ root, g.readRoot? leaf = some root ∧ root.name = name := by
  rw [mapM_eq_some_iff]
  induction leaves generalizing indices with
  | nil => cases indices <;> simp
  | cons leaf leaves ih =>
    cases indices with
    | nil => simp
    | cons i indices =>
      simp only [List.map_cons, List.cons.injEq, ih, byteRead?_eq_some_iff_readIndex?,
        List.forall_mem_cons]
      tauto

theorem PartAt.reaches {offset : Nat} {part : NodeId} (h : g.PartAt e offset part) :
    g.Reaches e part := by
  induction h with
  | whole e => exact .refl e
  | high hx _ ih | low hx _ ih => exact .of_child (by simp [hx, Expr.children]) ih

theorem WellFormed.exists_name_of_symbols_size (wf : g.WellFormed) (he : e < g.size)
    (hs : (g.symbols e).size = 1) : ∃ name, ∀ leaf ∈ (g.leaves e).map Prod.snd, ∀ root,
      g.readRoot? leaf = some root → root.name = name := by
  rw [← Std.TreeSet.length_toList, List.length_eq_one_iff] at hs
  obtain ⟨name, hs⟩ := hs
  refine ⟨name, fun leaf hleaf root hroot => ?_⟩
  obtain ⟨⟨offset, leaf⟩, hmem, rfl⟩ := List.mem_map.1 hleaf
  have hreads : root.name ∈ g.symbols e := by
    rw [wf.mem_symbols_iff he, wf.anyRead_tree_iff he]
    refine ⟨leaf, (wf.mem_leaves_iff.1 hmem).1.reaches, ?_⟩
    unfold readRoot? at hroot
    cases hx : g.expr leaf with
    | read r index =>
      rw [hx] at hroot
      exact ⟨r, index, hx, congrArg Root.name (Option.some.inj hroot)⟩
    | _ => simp [hx] at hroot
  rw [← Std.TreeSet.mem_toList, hs] at hreads
  exact List.mem_singleton.1 hreads

theorem WellFormed.exists_readsRun_iff (wf : g.WellFormed) (he : e < g.size) {count : Nat} :
    (∃ name, g.ReadsRun name 0 count e) ↔
      (g.symbols e).size = 1 ∧ g.bytesRead e = some (List.range count).reverse := by
  have run : ∀ name, g.ReadsRun name 0 count e ↔
      g.leafIndices? e = some (List.range count).reverse ∧
        ∀ leaf ∈ (g.leaves e).map Prod.snd, ∃ root, g.readRoot? leaf = some root ∧
          root.name = name := by
    intro name
    rw [leafIndices?, ← map_byteRead?_iff, List.map_map, ReadsRun]
    simp only [Nat.zero_add]
    rfl
  rw [wf.bytesRead_eq he]
  constructor
  · rintro ⟨name, h⟩
    exact ⟨(h.byteRun wf).symbols_size wf he, ((run name).1 h).1⟩
  · rintro ⟨hs, hindices⟩
    obtain ⟨name, hname⟩ := wf.exists_name_of_symbols_size he hs
    refine ⟨name, (run name).2 ⟨hindices, fun leaf hleaf => ?_⟩⟩
    have index : g.readIndex? leaf ∈ (List.range count).reverse.map some :=
      mapM_eq_some_iff.1 hindices ▸ List.mem_map_of_mem hleaf
    obtain ⟨i, -, hi⟩ := List.mem_map.1 index
    cases hx : g.expr leaf with
    | read r index =>
      have hroot : g.readRoot? leaf = some (g.root r) := by rw [readRoot?, hx]
      exact ⟨g.root r, hroot, hname leaf hleaf _ hroot⟩
    | _ => simp [readIndex?, hx] at hi

theorem WellFormed.isLittleEndianRead_iff (wf : g.WellFormed) (he : e < g.size) :
    g.isLittleEndianRead e = true ↔
      (g.expr e).isConcat ∧ ∃ name, g.ReadsRun name 0 (g.width e / 8) e := by
  rw [wf.exists_readsRun_iff he]
  unfold isLittleEndianRead
  simp only [Bool.and_eq_true, beq_iff_eq, Option.any_eq_true]
  constructor
  · rintro ⟨⟨⟨hconcat, -⟩, hs⟩, indices, hread, hlength, hindices⟩
    rw [hlength] at hindices
    exact ⟨hconcat, hs, hread.trans (congrArg some hindices)⟩
  · rintro ⟨hconcat, hs, hread⟩
    obtain ⟨name, run⟩ := (wf.exists_readsRun_iff he).2 ⟨hs, hread⟩
    have width := (run.byteRun wf).width_eq wf he
    exact ⟨⟨⟨hconcat, by omega⟩, hs⟩, _, hread, by simp⟩

/-- A run has at most as many bytes as there are nodes, since each of its bytes is read by
another. -/
theorem ReadsRun.count_le {start count : Nat} (run : g.ReadsRun name start count e)
    (wf : g.WellFormed) (he : e < g.size) : count ≤ g.size := by
  have places : ((g.leaves e).map Prod.snd).map g.byteRead? =
      (List.range count).reverse.map fun i => some (name, start + i) := by
    rw [List.map_map]
    exact run
  have distinct : ((List.range count).reverse.map fun i => some (name, start + i)).Nodup := by
    refine List.Nodup.map (fun i j h => ?_) (List.nodup_reverse.2 List.nodup_range)
    simpa using h
  have leaves : ((g.leaves e).map Prod.snd).Nodup :=
    List.Nodup.of_map g.byteRead? (places ▸ distinct)
  have below : (g.leaves e).map Prod.snd ⊆ List.range g.size := by
    intro leaf hleaf
    obtain ⟨⟨offset, leaf⟩, hmem, rfl⟩ := List.mem_map.1 hleaf
    exact List.mem_range.2 (wf.inside_of_partAt he (wf.mem_leaves_iff.1 hmem).1).1
  have hlength := congrArg List.length places
  simp only [List.length_map, List.length_reverse, List.length_range] at hlength
  have hle := (List.subperm_of_subset leaves below).length_le
  rwa [List.length_map, List.length_range, hlength] at hle

theorem ByteRun.eval_eq_ok_iff {start count : Nat} {bytes : Bytes} {known : Nat → Option UInt8}
    {c : Constant} (run : g.ByteRun name start count e) (wf : g.WellFormed) (he : e < g.size)
    (hknown : ∀ root, (g.tree e).Reads root → ∀ i, (root.byte? i <|> bytes root i) = known i) :
    (g.tree e).eval bytes = .ok c ↔
      ∃ values, (List.range' start count).map known = values.map some ∧ c = .ofBytes values := by
  induction run generalizing c with
  | @byte start e hread =>
    obtain ⟨r, index, i, hx, -, hi, hw⟩ := byteRead?_eq_some_iff.1 hread
    have tree : g.tree e = .read (g.root r) (.constant i) := by
      rw [wf.tree_eq he, hx, Expr.unfold,
        wf.tree_of_expr_constant (wf.child_lt_size he (by simp [hx, Expr.children])) hi]
    have byte : bytes.at? (g.root r) i = known start := by
      rw [Bytes.at?, hw, Option.bind_some]
      exact hknown (g.root r) (tree ▸ .inl rfl) start
    have value : (g.tree e).eval bytes = (known start).elim
        (.error (.symbolicRead (g.root r).name i)) fun byte => .ok (.ofNat byte.toNat 8) := by
      rw [tree, ← byte]
      simp only [Tree.eval, bind, Except.bind]
      cases bytes.at? (g.root r) i <;> rfl
    have one : ∀ values, (List.range' start 1).map known = values.map some ↔
        ∃ byte, values = [byte] ∧ some byte = known start := fun values => by
      rw [List.range'_one, List.map_singleton, eq_comm, List.map_eq_singleton_iff]
    simp only [value, one]
    constructor
    · intro h
      cases hbyte : known start with
      | none => simp [hbyte] at h
      | some byte =>
        rw [hbyte] at h
        exact ⟨[byte], ⟨byte, rfl, rfl⟩, (Except.ok.inj h).symm⟩
    · rintro ⟨_, ⟨byte, rfl, hbyte⟩, rfl⟩
      rw [← hbyte]
      rfl
  | @concat start m n e high low hx _ _ ihl ihh =>
    obtain ⟨hhigh, hlow, -⟩ := wf.concat_operands he hx
    rw [wf.tree_of_concat he hx] at hknown ⊢
    have left := fun {c} => ihh (c := c) (Nat.lt_trans hhigh he) fun root hread =>
      hknown root (.inl hread)
    have right := fun {c} => ihl (c := c) (Nat.lt_trans hlow he) fun root hread =>
      hknown root (.inr hread)
    rw [Tree.eval_concat_eq_ok_iff, ← List.range'_append_1, List.map_append]
    constructor
    · rintro ⟨h, l, hh, hl, rfl⟩
      obtain ⟨above, habove, rfl⟩ := left.1 hh
      obtain ⟨below, hbelow, rfl⟩ := right.1 hl
      refine ⟨below ++ above, ?_, (Constant.ofBytes_append below above).symm⟩
      rw [List.map_append, hbelow, habove]
    · rintro ⟨values, hvalues, rfl⟩
      obtain ⟨below, above, rfl, hbelow, habove⟩ := List.map_eq_append_iff.1 hvalues.symm
      exact ⟨.ofBytes above, .ofBytes below, left.2 ⟨above, habove.symm, rfl⟩,
        right.2 ⟨below, hbelow.symm, rfl⟩, Constant.ofBytes_append below above⟩

/-- Little-endian reads are found exactly where a concat has leaves that read, from left to right,
the bytes `n - 1` to `0` of roots of one name, in whatever way concats put them together and share
them. Such a read, in a graph of which a 32-bit handle names every node, has the same values as the
bytes of any root read one after the other, as long as all roots that it reads have the contents and
the symbolic bytes of that root. -/
theorem isLittleEndianRead_iff_readsRun (wf : g.WellFormed) (he : e < g.size) :
    (g.isLittleEndianRead e = true ↔
      (g.expr e).isConcat ∧ ∃ name, g.ReadsRun name 0 (g.width e / 8) e) ∧
    (g.isLittleEndianRead e = true → g.size ≤ UInt32.size → ∀ r < g.roots.size,
      ∃ e' h, Build.readBytes r 0 (g.width e / 8) g = .ok e' h ∧ g.Grows h ∧ e' < h.size ∧
        h.width e' = g.width e ∧
        ∀ bytes : Bytes, (∀ root, (g.tree e).Reads root →
            root.contents = (g.root r).contents ∧ bytes root = bytes (g.root r)) →
          ∀ c, (g.tree e).eval bytes = .ok c ↔ (h.tree e').eval bytes = .ok c) := by
  refine ⟨wf.isLittleEndianRead_iff he, fun found hsize r hr => ?_⟩
  obtain ⟨-, name, reads⟩ := (wf.isLittleEndianRead_iff he).1 found
  have run := reads.byteRun wf
  have fits : 0 + g.width e / 8 ≤ 2 ^ 32 := by
    have := reads.count_le wf he
    rw [UInt32.size] at hsize
    omega
  obtain ⟨e', h, read, grown, he', run', only⟩ :=
    Build.readBytes_run_of_root wf hr run.count_pos fits
  refine ⟨e', h, read, grown, he', ?_, fun bytes alike c => ?_⟩
  · have width := run.width_eq wf he
    have width' := run'.width_eq grown.wellFormed he'
    omega
  · let known : Nat → Option UInt8 := fun i => (g.root r).byte? i <|> bytes (g.root r) i
    have mine : ∀ root, (g.tree e).Reads root → ∀ i, (root.byte? i <|> bytes root i) = known i := by
      intro root hread i
      obtain ⟨hcontents, hbytes⟩ := alike root hread
      simp only [known, Root.byte?, hcontents, hbytes]
    have theirs : ∀ root, (h.tree e').Reads root → ∀ i,
        (root.byte? i <|> bytes root i) = known i := by
      intro root hread i
      rw [only root hread]
    rw [run.eval_eq_ok_iff wf he mine, run'.eval_eq_ok_iff grown.wellFormed he' theirs]

/-- Four bytes of a packet that is known under two sizes, put together as two pairs, one of them
read at short indices. They have the values of the four bytes read in a row. The same pairs the
other way round are no little-endian read. -/
theorem isLittleEndianRead_of_pairs :
    let g : Graph := {
      nodes := #[⟨.constant ⟨0, 32⟩, 32⟩, ⟨.read 1 0, 8⟩, ⟨.constant ⟨1, 32⟩, 32⟩, ⟨.read 1 2, 8⟩,
        ⟨.concat 3 1, 16⟩, ⟨.constant ⟨2, 8⟩, 8⟩, ⟨.read 0 5, 8⟩, ⟨.constant ⟨3, 8⟩, 8⟩,
        ⟨.read 0 7, 8⟩, ⟨.concat 8 6, 16⟩, ⟨.concat 9 4, 32⟩, ⟨.concat 4 9, 32⟩]
      roots := #[.symbolic "packet" 4, .symbolic "packet" 64] }
    g.WellFormed ∧ 10 < g.size ∧ 11 < g.size ∧ g.size ≤ UInt32.size ∧ 0 < g.roots.size ∧
      g.isLittleEndianRead 10 = true ∧ g.ReadsRun "packet" 0 4 10 ∧
      g.isLittleEndianRead 11 = false ∧
      ∃ e h, Build.readBytes 0 0 4 g = .ok e h ∧ ∀ packet : Nat → Option UInt8, ∀ c,
        (g.tree 10).eval (fun _ i => packet i) = .ok c ↔
          (h.tree e).eval (fun _ i => packet i) = .ok c := by
  intro g
  have wf : g.WellFormed := by decide +kernel
  have he : 10 < g.size := by decide
  have hsize : g.size ≤ UInt32.size := by decide
  have run : g.ReadsRun "packet" 0 4 10 := by
    unfold ReadsRun
    decide +kernel
  have width : g.width 10 / 8 = 4 := by decide
  obtain ⟨shape, value⟩ := isLittleEndianRead_iff_readsRun wf he
  rw [width] at shape value
  have found : g.isLittleEndianRead 10 = true := shape.2 ⟨by decide, "packet", run⟩
  have other : g.isLittleEndianRead 11 = false := by decide +kernel
  obtain ⟨e, h, read, -, -, -, same⟩ := value found hsize 0 (by decide)
  have contents : ∀ root, (g.tree 10).Reads root → root.contents = none := by
    have tree : g.tree 10 = .concat
        (.concat (.read (.symbolic "packet" 4) (.constant ⟨3, 8⟩))
          (.read (.symbolic "packet" 4) (.constant ⟨2, 8⟩)))
        (.concat (.read (.symbolic "packet" 64) (.constant ⟨1, 32⟩))
          (.read (.symbolic "packet" 64) (.constant ⟨0, 32⟩))) := by decide +kernel
    rw [tree]
    rintro root ((hread | hread) | hread | hread) <;> obtain rfl | none := hread
    all_goals first | rfl | exact none.elim
  exact ⟨wf, he, by decide, hsize, by decide, found, run, other, e, h, read, fun packet =>
    same _ fun root hread => ⟨contents root hread, rfl⟩⟩

/-- Two bytes of a packet that is known under two sizes. Roots of different sizes may have different
symbolic bytes, and then this little-endian read has the value of the bytes of neither root. -/
theorem isLittleEndianRead_across_sizes :
    let g : Graph := {
      nodes := #[⟨.constant ⟨1, 32⟩, 32⟩, ⟨.read 0 0, 8⟩, ⟨.constant ⟨0, 32⟩, 32⟩, ⟨.read 1 2, 8⟩,
        ⟨.concat 1 3, 16⟩]
      roots := #[.symbolic "packet" 4, .symbolic "packet" 64] }
    let bytes : Bytes := fun root _ => if root.size = 4 then some 0x11 else some 0x22
    g.WellFormed ∧ 4 < g.size ∧ g.isLittleEndianRead 4 = true ∧
      (∀ root, (g.tree 4).Reads root → root.contents = none) ∧
      (g.tree 4).eval bytes = .ok ⟨0x1122, 16⟩ ∧
      (∃ e h, Build.readBytes 0 0 2 g = .ok e h ∧ (h.tree e).eval bytes = .ok ⟨0x1111, 16⟩) ∧
      ∃ e h, Build.readBytes 1 0 2 g = .ok e h ∧ (h.tree e).eval bytes = .ok ⟨0x2222, 16⟩ := by
  intro g bytes
  have contents : ∀ root, (g.tree 4).Reads root → root.contents = none := by
    have tree : g.tree 4 = .concat (.read (.symbolic "packet" 4) (.constant ⟨1, 32⟩))
        (.read (.symbolic "packet" 64) (.constant ⟨0, 32⟩)) := by decide +kernel
    rw [tree]
    rintro root (hread | hread) <;> obtain rfl | none := hread
    all_goals first | rfl | exact none.elim
  exact ⟨by decide +kernel, by decide, by decide +kernel, contents, by decide +kernel,
    ⟨_, _, rfl, by decide +kernel⟩, _, _, rfl, by decide +kernel⟩

end Graph

end BitvectorCode
