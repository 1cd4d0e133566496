import BitvectorCode.Proofs.Analysis.Symbols
import BitvectorCode.Proofs.FreshName
import BitvectorCode.Proofs.Rewrite.Mirror
import BitvectorCode.Proofs.Rewrite.Rename

/-!
# What swapping does

A swap gives the packet symbol a name that the expression does not use, mirrors the reads of that
name, and takes the name back. The three passes together replace each read of a packet byte inside a
range once, and change nothing else.
-/

namespace BitvectorCode

open BitvectorCode.Graph

namespace ByteSwapper

theorem mapRoots_mirrorRead_mapRoots (symbol : String) (ranges : List ByteRange)
    (before after : Root → Root) (t : Tree) :
    ((t.mapRoots before).mapReads (mirrorRead symbol ranges)).mapRoots after =
      t.mapReads fun root index => .read (after (before root))
        (if (before root).name = symbol then index.atConstant (mirrored ranges) else index) := by
  have first : (t.mapRoots before).mapReads (mirrorRead symbol ranges) =
      t.mapReads fun root => mirrorRead symbol ranges (before root) := by
    refine Tree.mapReads_mapReads (fun root index => ?_) t
    rfl
  rw [first]
  refine Tree.mapReads_mapReads (fun root index => ?_) t
  change Tree.read _ (Tree.mapRoots after _) = _
  rw [apply_ite (Tree.mapRoots after), Tree.atConstant_mapRoots]
  rfl

/-- To take an unused name, mirror its reads and take the old name back is to mirror the reads of
the symbol. -/
theorem mirrorRead_between_renamings {symbol temporary : String}
    {ranges : List ByteRange} {t : Tree} (fresh : ¬ t.AnyRead fun root _ => root.name = temporary) :
    ((t.mapRoots (Root.translated (.ofList [(symbol, temporary)]))).mapReads
      (mirrorRead temporary ranges)).mapRoots (Root.translated (.ofList [(temporary, symbol)])) =
      t.mapReads (mirrorRead symbol ranges) := by
  rw [mapRoots_mirrorRead_mapRoots]
  refine Tree.mapReads_congr (fun root index hfresh => ?_) fresh
  rw [Root.translated_singleton symbol temporary, mirrorRead]
  by_cases hname : root.name = symbol
  · have there : (root.renamed temporary).name = temporary := rfl
    have back : (root.renamed temporary).translated (.ofList [(temporary, symbol)]) = root := by
      rw [Root.translated_singleton, if_pos there, ← hname]
      rfl
    rw [if_pos hname, if_pos there, if_pos hname, back]
  · rw [if_neg hname, if_neg hfresh, if_neg hname, Root.translated_singleton, if_neg hfresh]

theorem mirrors_translated_iff {symbol temporary : String} {ranges : List ByteRange} {root : Root}
    {index : Tree} (fresh : root.name ≠ temporary) :
    Mirrors temporary ranges (root.translated (.ofList [(symbol, temporary)]))
      (index.mapRoots (Root.translated (.ofList [(symbol, temporary)]))) ↔
      Mirrors symbol ranges root index := by
  have hname : (root.translated (.ofList [(symbol, temporary)])).name = temporary ↔
      root.name = symbol := by
    rw [Root.translated_singleton]
    split
    · next hname => exact iff_of_true rfl hname
    · next hname => exact iff_of_false fresh hname
  have hconst : ∀ c,
      index.mapRoots (Root.translated (.ofList [(symbol, temporary)])) = .constant c ↔
      index = .constant c := fun c => Tree.mapReads_eq_constant_iff fun _ _ => Tree.noConfusion
  simp only [Mirrors, hname, hconst]

end ByteSwapper

/-- The node reads `symbol` at the constant index `c`, and `range` is the first of the ranges that
holds it. -/
def Graph.ReadsIn (g : Graph) (symbol : String) (ranges : List ByteRange)
    (n : NodeId) (c : Constant) (range : ByteRange) : Prop :=
  ∃ root index, g.expr n = .read root index ∧ (g.root root).name = symbol ∧
    g.expr index = .constant c ∧ ranges.find? (·.contains c.value) = some range

namespace Swapping

variable {g : Graph} {e : NodeId}

theorem build_eq_ok {α : Type} {x : Build α} {h : Graph} {a : α} (names : NameGenerator)
    (swapper : ByteSwapper) (hx : x g = .ok a h) :
    build x ⟨g, names, swapper⟩ = .ok a ⟨h, names, swapper⟩ := by
  simp only [build, hx]

theorem mirrorReads_tree (symbol : String) (names : NameGenerator) (swapper : ByteSwapper)
    (wf : g.WellFormed) (he : e < g.size) :
    ∃ r h swapped,
      mirrorReads symbol e ⟨g, names, swapper⟩ = .ok r ⟨h, names, { swapper with swapped }⟩ ∧
      g.Grows h ∧ r < h.size ∧
      h.tree r = (g.tree e).mapReads (ByteSwapper.mirrorRead symbol swapper.ranges) ∧
      (swapped = true ↔ (g.tree e).AnyRead (ByteSwapper.Mirrors symbol swapper.ranges)) := by
  obtain ⟨r, t, h, outcome⟩ | ⟨_, _, _, impossible⟩ :=
    (ByteSwapper.rewrite_mirrors symbol swapper.ranges wf he).outcome rfl
  · refine ⟨r, t.graph, t.notes, ?_, outcome⟩
    simp only [mirrorReads, h]
  · exact impossible.elim

/-- The three passes of a swap mirror the reads of the packet symbol, whatever the swapper did
before. -/
theorem swap_tree (wf : g.WellFormed) (he : e < g.size) (names : NameGenerator)
    (swapper : ByteSwapper) :
    ∃ r h swapped, swap e ⟨g, names, swapper⟩ =
        .ok r ⟨h, (names.generateUnused (g.symbols e) swapper.packetSymbol).2,
          { swapper with swapped }⟩ ∧
      g.Grows h ∧ r < h.size ∧
      h.tree r = (g.tree e).mapReads (ByteSwapper.mirrorRead swapper.packetSymbol swapper.ranges) ∧
      (swapped = true ↔
        (g.tree e).AnyRead (ByteSwapper.Mirrors swapper.packetSymbol swapper.ranges)) := by
  obtain ⟨k, hk, hunused, -⟩ := names.generateUnused_eq (g.symbols e) swapper.packetSymbol
  let temporary := (names.generateUnused (g.symbols e) swapper.packetSymbol).1
  let names' := (names.generateUnused (g.symbols e) swapper.packetSymbol).2
  have fresh : ¬ (g.tree e).AnyRead fun root _ => root.name = temporary := by
    rw [← wf.mem_symbols_iff he, show temporary = _ from hk]
    exact hunused
  obtain ⟨r₁, h₁, run₁, grown₁, hr₁, tree₁⟩ :=
    Build.rename_tree (.ofList [(swapper.packetSymbol, temporary)]) wf he
  obtain ⟨r₂, h₂, swapped, run₂, grown₂, hr₂, tree₂, noted⟩ :=
    mirrorReads_tree temporary names' { swapper with swapped := false } grown₁.wellFormed hr₁
  obtain ⟨r₃, h₃, run₃, grown₃, hr₃, tree₃⟩ :=
    Build.rename_tree (.ofList [(temporary, swapper.packetSymbol)]) grown₂.wellFormed hr₂
  have run : swap e ⟨g, names, swapper⟩ =
      (build (Build.rename (.ofList [(swapper.packetSymbol, temporary)]) e) >>= fun renamed =>
        mirrorReads temporary renamed >>= fun mirrored =>
          build (Build.rename (.ofList [(temporary, swapper.packetSymbol)]) mirrored))
        ⟨g, names', { swapper with swapped := false }⟩ := rfl
  refine ⟨r₃, h₃, swapped, ?_, (grown₁.trans grown₂).trans grown₃, hr₃, ?_, ?_⟩
  · rw [run, bind_apply_of_ok (build_eq_ok _ _ run₁), bind_apply_of_ok run₂, build_eq_ok _ _ run₃]
  · rw [tree₃, tree₂, tree₁]
    exact ByteSwapper.mirrorRead_between_renamings fresh
  · rw [noted, tree₁, Tree.anyRead_mapRoots_iff]
    exact Tree.anyRead_congr (fun _ _ hfresh => ByteSwapper.mirrors_translated_iff hfresh) fresh

/-- A swap replaces each read of the packet symbol at a constant index inside a range by the read at
the other end of the first such range, once, and changes nothing else. It tells whether there was
such a read, whatever the swapper did before. Every index must be wide enough for the high end of
its range, which is a 64-bit word. The search for a temporary name ends with the first one that the
expression does not use. -/
theorem swap_mirrors_once (wf : g.WellFormed) (he : e < g.size) (names : NameGenerator)
    (swapper : ByteSwapper) (words : ∀ range ∈ swapper.ranges, range.high < UInt64.size)
    (wide : ∀ n c range, g.Reaches e n → g.ReadsIn swapper.packetSymbol swapper.ranges n c range →
      range.high < 2 ^ c.bits) :
    ∃ r t, swap e ⟨g, names, swapper⟩ = .ok r t ∧ g.Grows t.graph ∧ r < t.graph.size ∧
      t.graph.tree r = (g.tree e).swapBytes swapper.packetSymbol swapper.ranges ∧
      (t.swapper.swapped = true ↔ ∃ n c range, g.Reaches e n ∧
        g.ReadsIn swapper.packetSymbol swapper.ranges n c range) ∧
      ∃ k, (names.generateUnused (g.symbols e) swapper.packetSymbol).1 =
          names.nth swapper.packetSymbol k ∧
        names.nth swapper.packetSymbol k ∉ g.symbols e ∧
        ∀ j < k, names.nth swapper.packetSymbol j ∈ g.symbols e := by
  obtain ⟨r, h, swapped, run, grown, hr, tree, noted⟩ := swap_tree wf he names swapper
  have index_lt : ∀ {n root index}, g.Reaches e n → g.expr n = .read root index → index < g.size :=
    fun hreach hx => wf.child_lt_size (hreach.lt_size wf he) (by simp [hx, Expr.children])
  have enough :
      ¬ (g.tree e).AnyRead (ByteSwapper.TooNarrow swapper.packetSymbol swapper.ranges) := by
    intro hnarrow
    obtain ⟨n, hreach, root, index, hx, c, range, hname, hc, hfound, hle⟩ :=
      (wf.anyRead_tree_iff he).1 hnarrow
    have hxi := wf.expr_of_tree_constant (index_lt hreach hx) hc
    exact absurd (wide n c range hreach ⟨root, index, hx, hname, hxi, hfound⟩) (Nat.not_lt.2 hle)
  refine ⟨r, _, run, grown, hr, ?_, noted.trans ?_, names.generateUnused_eq _ _⟩
  · rw [tree, ByteSwapper.mapReads_mirrorRead_eq_swapBytes words enough]
  · rw [wf.anyRead_tree_iff he]
    constructor
    · rintro ⟨n, hreach, root, index, hx, hread⟩
      obtain ⟨c, range, hin⟩ := (ByteSwapper.mirrors_tree_iff words wf (index_lt hreach hx)).1 hread
      exact ⟨n, c, range, hreach, root, index, hx, hin⟩
    · rintro ⟨n, c, range, hreach, root, index, hx, hin⟩
      exact ⟨n, hreach, root, index, hx,
        (ByteSwapper.mirrors_tree_iff words wf (index_lt hreach hx)).2 ⟨c, range, hin⟩⟩

/-- With the default ranges two bytes of the first of them are mirrored, one of them shared and
one inside an index. A byte outside all ranges and the root that goes by the first temporary name
stay. -/
theorem swap_mirrors_header_bytes :
    let g : Graph := {
      nodes := #[⟨.constant ⟨0, 32⟩, 32⟩, ⟨.read 0 0, 8⟩, ⟨.constant ⟨4, 32⟩, 32⟩, ⟨.read 0 2, 8⟩,
        ⟨.zeroExtend 3, 32⟩, ⟨.read 0 4, 8⟩, ⟨.constant ⟨40, 32⟩, 32⟩, ⟨.read 0 6, 8⟩,
        ⟨.read 1 0, 8⟩, ⟨.concat 1 1, 16⟩, ⟨.concat 9 5, 24⟩, ⟨.concat 7 8, 16⟩,
        ⟨.concat 10 11, 40⟩]
      roots := #[.symbolic "packet_chunks" 64, .symbolic "packet_chunks__0" 64] }
    let swapper : ByteSwapper := .ofOptions {}
    let packet (index : Tree) : Tree := .read (.symbolic "packet_chunks" 64) index
    let byte (index : Nat) : Tree := packet (.constant ⟨index, 32⟩)
    g.WellFormed ∧ 12 < g.size ∧ (∀ range ∈ swapper.ranges, range.high < UInt64.size) ∧
      (∀ n c range, g.Reaches 12 n → g.ReadsIn swapper.packetSymbol swapper.ranges n c range →
        range.high < 2 ^ c.bits) ∧
      ∃ r t, swap 12 ⟨g, {}, swapper⟩ = .ok r t ∧ t.swapper.swapped = true ∧
        t.graph.tree r =
          .concat (.concat (.concat (byte 5) (byte 5)) (packet (.zeroExtend (byte 1) 32)))
          (.concat (byte 40) (.read (.symbolic "packet_chunks__0" 64) (.constant ⟨0, 32⟩))) := by
  intro g swapper packet byte
  have wf : g.WellFormed := by decide +kernel
  have he : 12 < g.size := by decide
  have words : ∀ range ∈ swapper.ranges, range.high < UInt64.size := by decide
  have wide : ∀ n c range, g.Reaches 12 n →
      g.ReadsIn swapper.packetSymbol swapper.ranges n c range → range.high < 2 ^ c.bits := by
    have short : ∀ range ∈ swapper.ranges, range.high < 2 ^ 32 := by decide
    have bits : ∀ i < g.size, ∀ c ∈ (g.expr i).constant?, c.bits = 32 := by decide
    rintro n c range hreach ⟨root, index, hx, -, hc, hfound⟩
    have hi : index < g.size :=
      wf.child_lt_size (hreach.lt_size wf he) (by rw [hx]; exact List.mem_singleton_self index)
    have hbits : c.bits = 32 := bits index hi c (by rw [hc]; rfl)
    rw [hbits]
    exact short range (List.mem_of_find?_eq_some hfound)
  obtain ⟨r, t, run, -, -, tree, noted, -⟩ := swap_mirrors_once wf he {} swapper words wide
  refine ⟨wf, he, words, wide, r, t, run,
    noted.2 ⟨1, ⟨0, 32⟩, ⟨0, 5⟩, ?_, 0, 0, rfl, rfl, rfl, rfl⟩, tree.trans ?_⟩
  · have first : g.Reaches 9 1 := .of_child (by decide) (.refl 1)
    have second : g.Reaches 10 1 := .of_child (by decide) first
    exact .of_child (by decide) second
  · decide +kernel

end Swapping

end BitvectorCode
