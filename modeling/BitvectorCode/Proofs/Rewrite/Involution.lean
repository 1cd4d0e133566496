import BitvectorCode.Proofs.Graph.Structure
import BitvectorCode.Proofs.Rewrite.ByteSwap

/-!
# Swapping twice

Over disjoint ranges a mirrored index lies in the range that it came from, so a second swap takes it
back. This needs indices that have room for the mirrored one: an index that is cut to its bits may
end up in another range, or in none.
-/

namespace BitvectorCode

open BitvectorCode.Graph

def ByteRange.Disjoint (r s : ByteRange) : Prop := ∀ i, r.contains i = true → s.contains i = false

theorem ByteRange.find?_eq_some {ranges : List ByteRange} {range : ByteRange} {i : Nat}
    (disjoint : ranges.Pairwise Disjoint) (hmem : range ∈ ranges) (hin : range.contains i = true) :
    ranges.find? (·.contains i) = some range := by
  induction ranges with
  | nil => cases hmem
  | cons first rest ih =>
    obtain ⟨hfirst, hrest⟩ := List.pairwise_cons.1 disjoint
    rcases List.mem_cons.1 hmem with rfl | hmem
    · exact List.find?_cons_of_pos hin
    · have hout : ¬ first.contains i = true := by
        intro hboth
        rw [hfirst range hmem i hboth] at hin
        cases hin
      have later : (first :: rest).find? (·.contains i) = rest.find? (·.contains i) :=
        List.find?_cons_of_neg hout
      rw [later]
      exact ih hrest hmem

theorem ByteRange.disjoint_of_lt {r s : ByteRange} (h : r.high < s.low) : r.Disjoint s := by
  intro i hin
  simp only [contains, Bool.and_eq_true, decide_eq_true_eq, Bool.and_eq_false_iff,
    decide_eq_false_iff_not] at hin ⊢
  omega

theorem Options.default_swapRanges_disjoint :
    ({} : Options).swapRanges.Pairwise ByteRange.Disjoint := by
  have ordered : ({} : Options).swapRanges.Pairwise fun r s => r.high < s.low := by decide
  exact ordered.imp ByteRange.disjoint_of_lt

namespace ByteSwapper

variable {symbol : String} {ranges : List ByteRange} {c : Constant}

theorem mirrored_mirrored (words : ∀ range ∈ ranges, range.high < UInt64.size)
    (disjoint : ranges.Pairwise ByteRange.Disjoint) (valid : c.Valid)
    (fit : ∀ range, ranges.find? (·.contains c.value) = some range →
      range.mirror c.value < 2 ^ c.bits) :
    mirrored ranges (mirrored ranges c) = c := by
  cases hfound : ranges.find? (·.contains c.value) with
  | none =>
    have stays : mirrored ranges c = c := by
      rw [mirrored, target?_eq words, hfound]
      rfl
    rw [stays, stays]
  | some range =>
    have hin : range.contains c.value = true := by simpa using List.find?_some hfound
    have hmem : range ∈ ranges := List.mem_of_find?_eq_some hfound
    have there : mirrored ranges c = ⟨range.mirror c.value, c.bits⟩ := by
      rw [mirrored, target?_eq words, hfound]
      exact Constant.ofNat_eq_self (fit range hfound)
    have back : ranges.find? (·.contains (range.mirror c.value)) = some range :=
      ByteRange.find?_eq_some disjoint hmem (ByteRange.mirror_mem hin)
    rw [there, mirrored, target?_eq words, back]
    change Constant.ofNat (range.mirror (range.mirror c.value)) c.bits = c
    rw [ByteRange.mirror_mirror hin]
    exact Constant.ofNat_eq_self valid

/-- A read of the symbol at a constant index that mirroring twice does not give back. -/
def Lost (symbol : String) (ranges : List ByteRange) (root : Root) (index : Tree) : Prop :=
  root.name = symbol ∧ ∃ c, index = .constant c ∧ mirrored ranges (mirrored ranges c) ≠ c

/-- Where no index is lost, mirroring the reads twice gives the tree back. -/
theorem mapReads_mirrorRead_mirrorRead {t : Tree} (kept : ¬ t.AnyRead (Lost symbol ranges)) :
    (t.mapReads (mirrorRead symbol ranges)).mapReads (mirrorRead symbol ranges) = t := by
  let twice : Root → Tree → Tree := fun root index => mirrorRead symbol ranges root
    (if root.name = symbol then index.atConstant (mirrored ranges) else index)
  have both : (t.mapReads (mirrorRead symbol ranges)).mapReads (mirrorRead symbol ranges) =
      t.mapReads twice := by
    refine Tree.mapReads_mapReads (fun root index => ?_) t
    change mirrorRead symbol ranges root (Tree.mapReads _ (ite _ _ _)) =
      mirrorRead symbol ranges root _
    rw [apply_ite (Tree.mapReads _)]
    refine congrArg (mirrorRead symbol ranges root) (if_congr Iff.rfl ?_ rfl)
    cases index <;> rfl
  have same : t.mapReads twice = t.mapReads .read := by
    refine Tree.mapReads_congr (fun root index hkept => ?_) kept
    by_cases hname : root.name = symbol
    · simp only [twice, mirrorRead, if_pos hname]
      refine congrArg (Tree.read root) ?_
      cases index with
      | constant c =>
        refine congrArg Tree.constant (by_contra fun hne => hkept ⟨hname, c, rfl, hne⟩)
      | _ => rfl
    · simp only [twice, mirrorRead, if_neg hname]
  rw [both, same, Tree.mapReads_read]

end ByteSwapper

namespace Swapping

variable {g : Graph} {e : NodeId}

theorem exists_swap_tree (wf : g.WellFormed) (he : e < g.size) (names : NameGenerator)
    (swapper : ByteSwapper) :
    ∃ r s, swap e ⟨g, names, swapper⟩ = .ok r s ∧ g.Grows s.graph ∧ r < s.graph.size ∧
      s.graph.tree r = (g.tree e).mapReads
        (ByteSwapper.mirrorRead swapper.packetSymbol swapper.ranges) := by
  obtain ⟨r, h, _, run, grown, hr, tree, -⟩ := swap_tree wf he names swapper
  exact ⟨r, _, run, grown, hr, tree⟩

/-- A second swap undoes the first, whatever names the two generators have given out before. The
ranges must be disjoint, and the bits of every index in one of them must hold the mirrored index. -/
theorem swap_swap (wf : g.WellFormed) (he : e < g.size) (options : Options)
    (names names' : NameGenerator) (words : ∀ range ∈ options.swapRanges, range.high < UInt64.size)
    (disjoint : options.swapRanges.Pairwise ByteRange.Disjoint)
    (fit : ∀ n c range, g.Reaches e n →
      g.ReadsIn options.packetSymbol options.swapRanges n c range →
      range.mirror c.value < 2 ^ c.bits) :
    ∃ once s, swap e ⟨g, names, .ofOptions options⟩ = .ok once s ∧
      ∃ twice t, swap once ⟨s.graph, names', .ofOptions options⟩ = .ok twice t ∧
        g.Grows t.graph ∧ t.graph.sameStructure twice e = true := by
  have kept : ¬ (g.tree e).AnyRead (ByteSwapper.Lost options.packetSymbol options.swapRanges) := by
    intro hlost
    obtain ⟨n, hreach, root, index, hx, hname, c, hc, hne⟩ := (wf.anyRead_tree_iff he).1 hlost
    have hi : index < g.size :=
      wf.child_lt_size (hreach.lt_size wf he) (by simp [hx, Expr.children])
    have hxi := wf.expr_of_tree_constant hi hc
    refine hne (ByteSwapper.mirrored_mirrored words disjoint (wf.constant_valid hi hxi) ?_)
    intro range hfound
    exact fit n c range hreach ⟨root, index, hx, hname, hxi, hfound⟩
  obtain ⟨once, s, run, grown, ho, tree⟩ := exists_swap_tree wf he names (.ofOptions options)
  obtain ⟨twice, t, run', grown', ht, tree'⟩ :=
    exists_swap_tree grown.wellFormed ho names' (.ofOptions options)
  have back : t.graph.tree twice = t.graph.tree e := by
    rw [tree', tree, (grown.trans grown').tree_eq wf he]
    exact ByteSwapper.mapReads_mirrorRead_mirrorRead kept
  have he' : e < t.graph.size := (grown.trans grown').lt_size he
  exact ⟨once, s, run, twice, t, run', grown.trans grown',
    (grown'.wellFormed.sameStructure_iff ht he').2 back⟩

/-- Over the default ranges the read of byte 11 at a 4-bit index, which is shared, and the read of
byte 0 at a 3-bit index inside another index are mirrored and mirrored back. Their bits have just
enough room. -/
theorem swap_swap_of_short_indices :
    let g : Graph := {
      nodes := #[⟨.constant ⟨11, 4⟩, 4⟩, ⟨.read 0 0, 8⟩, ⟨.constant ⟨0, 3⟩, 3⟩, ⟨.read 0 2, 8⟩,
        ⟨.zeroExtend 3, 32⟩, ⟨.read 0 4, 8⟩, ⟨.constant ⟨40, 32⟩, 32⟩, ⟨.read 0 6, 8⟩,
        ⟨.concat 1 1, 16⟩, ⟨.concat 8 5, 24⟩, ⟨.concat 9 7, 32⟩]
      roots := #[.symbolic "packet_chunks" 64] }
    let options : Options := {}
    g.WellFormed ∧ 10 < g.size ∧ (∀ range ∈ options.swapRanges, range.high < UInt64.size) ∧
      options.swapRanges.Pairwise ByteRange.Disjoint ∧
      (∀ n c range, g.Reaches 10 n →
        g.ReadsIn options.packetSymbol options.swapRanges n c range →
          range.mirror c.value < 2 ^ c.bits) ∧
      ∃ once s, swap 10 ⟨g, {}, .ofOptions options⟩ = .ok once s ∧
        ∃ twice t, swap once ⟨s.graph, {}, .ofOptions options⟩ = .ok twice t ∧
          g.Grows t.graph ∧ t.graph.sameStructure twice 10 = true := by
  intro g options
  have wf : g.WellFormed := by decide +kernel
  have he : 10 < g.size := by decide
  have words : ∀ range ∈ options.swapRanges, range.high < UInt64.size := by decide
  have room : ∀ i < g.size, ∀ c ∈ (g.expr i).constant?,
      ∀ range ∈ options.swapRanges.find? (·.contains c.value),
        range.mirror c.value < 2 ^ c.bits := by
    decide
  have fit : ∀ n c range, g.Reaches 10 n →
      g.ReadsIn options.packetSymbol options.swapRanges n c range →
        range.mirror c.value < 2 ^ c.bits := by
    rintro n c range hreach ⟨root, index, hx, -, hc, hfound⟩
    have hi : index < g.size :=
      wf.child_lt_size (hreach.lt_size wf he) (by rw [hx]; exact List.mem_singleton_self index)
    exact room index hi c (by rw [hc]; rfl) range hfound
  exact ⟨wf, he, words, Options.default_swapRanges_disjoint, fit,
    swap_swap wf he options {} {} words Options.default_swapRanges_disjoint fit⟩

/-- Byte 6 is mirrored to byte 11, of which a 3-bit index keeps 3. That lies in another of the
default ranges, so the second swap goes on to byte 2. -/
theorem swap_swap_of_cut_index :
    let g : Graph := {
      nodes := #[⟨.constant ⟨6, 3⟩, 3⟩, ⟨.read 0 0, 8⟩]
      roots := #[.symbolic "packet_chunks" 64] }
    let options : Options := {}
    let byte (index : Nat) : Tree := .read (.symbolic "packet_chunks" 64) (.constant ⟨index, 3⟩)
    g.WellFormed ∧ 1 < g.size ∧ options.swapRanges.Pairwise ByteRange.Disjoint ∧ g.tree 1 = byte 6 ∧
      ∃ once s, swap 1 ⟨g, {}, .ofOptions options⟩ = .ok once s ∧ s.graph.tree once = byte 3 ∧
        ∃ twice t, swap once ⟨s.graph, s.names, .ofOptions options⟩ = .ok twice t ∧
          t.graph.tree twice = byte 2 ∧ t.graph.sameStructure twice 1 = false := by
  intro g options byte
  have wf : g.WellFormed := by decide +kernel
  have he : 1 < g.size := by decide
  have start : g.tree 1 = byte 6 := by decide +kernel
  obtain ⟨once, s, run, grown, ho, tree⟩ := exists_swap_tree wf he {} (.ofOptions options)
  obtain ⟨twice, t, run', grown', ht, tree'⟩ :=
    exists_swap_tree grown.wellFormed ho s.names (.ofOptions options)
  have first : s.graph.tree once = byte 3 := by
    rw [tree, start]
    decide +kernel
  have second : t.graph.tree twice = byte 2 := by
    rw [tree', first]
    decide +kernel
  have he' : 1 < t.graph.size := (grown.trans grown').lt_size he
  have other : ¬ t.graph.sameStructure twice 1 = true := by
    rw [grown'.wellFormed.sameStructure_iff ht he', second,
      (grown.trans grown').tree_eq wf he, start]
    decide
  exact ⟨wf, he, Options.default_swapRanges_disjoint, start, once, s, run, first, twice, t, run',
    second, Bool.eq_false_iff.2 other⟩

end Swapping

end BitvectorCode
