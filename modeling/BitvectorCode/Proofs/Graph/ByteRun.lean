import BitvectorCode.Proofs.Analysis.Symbols
import BitvectorCode.Proofs.Graph.ConcatTree

/-!
# Runs of bytes

Neighbouring bytes of a root can be put together by concats of any shape, as long as every byte
stands left of the one before it. Runs that follow each other make up one run, whichever of them
were made first, and a whole run reads roots of one name only.
-/

namespace BitvectorCode

def Tree.Reads (t : Tree) (root : Root) : Prop := t.AnyRead fun other _ => other = root

namespace Graph

def byteRead? (g : Graph) (e : NodeId) : Option (String × Nat) :=
  match g.readRoot? e, g.readIndex? e with
  | some root, some i => some (root.name, i)
  | _, _ => none

/-- From left to right, the leaves read the bytes `start + count - 1` down to `start` of roots of
one name. -/
def ReadsRun (g : Graph) (name : String) (start count : Nat) (e : NodeId) : Prop :=
  (g.leaves e).map (fun leaf => g.byteRead? leaf.2) =
    (List.range count).reverse.map fun i => some (name, start + i)

/-- A read of one byte, or a concat of two runs, the left one from where the right one ends. -/
inductive ByteRun (g : Graph) (name : String) : (start count : Nat) → NodeId → Prop
  | byte {start : Nat} {e : NodeId} (hx : g.byteRead? e = some (name, start)) :
      ByteRun g name start 1 e
  | concat {start m n : Nat} {e high low : NodeId} (hx : g.expr e = .concat high low)
      (hl : ByteRun g name start m low) (hh : ByteRun g name (start + m) n high) :
      ByteRun g name start (m + n) e

variable {g h : Graph} {name : String} {start count : Nat} {e : NodeId}

theorem byteRead?_eq_some_iff {i : Nat} : g.byteRead? e = some (name, i) ↔
    ∃ r index c, g.expr e = .read r index ∧ (g.root r).name = name ∧ g.expr index = .constant c ∧
      c.word? = some i := by
  unfold byteRead? readRoot? readIndex?
  constructor
  · intro h
    cases hx : g.expr e with
    | read r index =>
      cases hi : g.expr index with
      | constant c =>
        cases hw : c.word? with
        | none => simp [hx, hi, hw, Expr.constant?] at h
        | some j =>
          obtain ⟨hname, rfl⟩ : (g.root r).name = name ∧ j = i := by
            simpa [hx, hi, hw, Expr.constant?] using h
          exact ⟨r, index, c, rfl, hname, hi, hw⟩
      | _ => simp [hx, hi, Expr.constant?] at h
    | _ => simp [hx] at h
  · rintro ⟨r, index, c, hx, hname, hi, hw⟩
    simp [hx, hname, hi, hw, Expr.constant?]

theorem ReadsRun.byteRun (wf : g.WellFormed) (h : g.ReadsRun name start count e) :
    g.ByteRun name start count e := by
  induction e using Nat.strong_induction_on generalizing start count with
  | _ e ih =>
    unfold ReadsRun at h
    have hlength := congrArg List.length h
    by_cases hc : (g.expr e).isConcat
    · obtain ⟨high, low, hx⟩ := Expr.exists_concat_of_isConcat hc
      have hhigh : high < e := wf.child_lt (by simp [hx, Expr.children])
      have hlow : low < e := wf.child_lt (by simp [hx, Expr.children])
      rw [wf.leaves_of_concat hx] at h hlength
      simp only [List.map_append, List.map_map, List.length_append, List.length_map,
        List.length_reverse, List.length_range] at h hlength
      rw [← hlength, Nat.add_comm, List.range_add, List.reverse_append, List.map_append] at h
      obtain ⟨hleft, hright⟩ := List.append_inj h (by simp)
      rw [← hlength, Nat.add_comm]
      refine .concat hx (ih low hlow hright) (ih high hhigh (hleft.trans ?_))
      simp [← List.map_reverse, Nat.add_assoc]
    · rw [leaves_of_not_isConcat hc] at h hlength
      obtain rfl : 1 = count := by simpa using hlength
      exact .byte (by simpa using h)

namespace ByteRun

variable (run : g.ByteRun name start count e)
include run

theorem count_pos : 0 < count := by
  induction run with
  | byte => exact Nat.one_pos
  | concat hx _ _ ihl _ => exact Nat.add_pos_left ihl _

theorem width_eq (wf : g.WellFormed) (he : e < g.size) : g.width e = 8 * count := by
  induction run with
  | byte hread =>
    obtain ⟨r, index, c, hx, -⟩ := byteRead?_eq_some_iff.1 hread
    have hsort := wf.sortRule he
    rw [hx] at hsort
    exact hsort
  | concat hx _ _ ihl ihh =>
    obtain ⟨hhigh, hlow, hwidth⟩ := wf.concat_operands he hx
    rw [hwidth, ihl (Nat.lt_trans hlow he), ihh (Nat.lt_trans hhigh he)]
    omega

theorem anyRead_tree_iff (wf : g.WellFormed) (he : e < g.size) {p : String → Prop} :
    ((g.tree e).AnyRead fun root _ => p root.name) ↔ p name := by
  induction run with
  | byte hread =>
    obtain ⟨r, index, c, hx, rfl, hi, -⟩ := byteRead?_eq_some_iff.1 hread
    have hindex : index < g.size := wf.child_lt_size he (by simp [hx, Expr.children])
    rw [wf.tree_eq he, hx, Expr.unfold, wf.tree_of_expr_constant hindex hi]
    simp [Tree.AnyRead]
  | concat hx _ _ ihl ihh =>
    obtain ⟨hhigh, hlow, -⟩ := wf.concat_operands he hx
    rw [wf.tree_of_concat he hx, Tree.AnyRead, ihl (Nat.lt_trans hlow he),
      ihh (Nat.lt_trans hhigh he), or_self]

theorem symbols_size (wf : g.WellFormed) (he : e < g.size) : (g.symbols e).size = 1 := by
  have same : (g.symbols e).Equiv {name} := by
    apply Std.TreeSet.Equiv.of_forall_mem_iff
    intro other
    rw [wf.mem_symbols_iff he, run.anyRead_tree_iff wf he (p := (· = other))]
    simp
  rw [same.size_eq]
  rfl

theorem grows (wf : g.WellFormed) (gh : g.Grows h) (he : e < g.size) :
    h.ByteRun name start count e := by
  induction run with
  | byte hread =>
    obtain ⟨r, index, c, hx, hname, hi, hw⟩ := byteRead?_eq_some_iff.1 hread
    have hindex : index < g.size := wf.child_lt_size he (by simp [hx, Expr.children])
    have hr : r < g.roots.size := wf.root_lt he (by simp [hx, Expr.roots])
    refine .byte (byteRead?_eq_some_iff.2 ⟨r, index, c, ?_, ?_, ?_, hw⟩)
    · rw [gh.expr_eq he, hx]
    · rw [gh.isExtendedBy.root_eq hr, hname]
    · rw [gh.expr_eq hindex, hi]
  | concat hx _ _ ihl ihh =>
    obtain ⟨hhigh, hlow, -⟩ := wf.concat_operands he hx
    exact .concat (by rw [gh.expr_eq he, hx]) (ihl (Nat.lt_trans hlow he))
      (ihh (Nat.lt_trans hhigh he))

end ByteRun

end Graph

namespace Build

open BitvectorCode.Graph

variable {g : Graph} {r : RootId}

theorem readAt_run (wf : g.WellFormed) (hr : r < g.roots.size) {i : Nat} (hi : i < 2 ^ 32) :
    ∃ e h, readAt r i g = .ok e h ∧ g.Grows h ∧ e < h.size ∧ h.ByteRun (g.root r).name i 1 e ∧
      ∀ root, (h.tree e).Reads root → root = g.root r := by
  let c : Constant := .ofNat i 32
  let indexed := g.push ⟨.constant c, 32⟩
  have first : g.Grows indexed := wf.grows_push_constant (Constant.ofNat_valid i 32)
  have hr' : r < indexed.roots.size := hr
  have second := first.wellFormed.grows_push_read hr' (lt_size_push _)
  have step : readAt r i g = .ok indexed.size (indexed.push ⟨.read r g.size, 8⟩) :=
    (bind_apply_of_ok (show constant c g = .ok g.size indexed from rfl)).trans
      (read_eq hr' (lt_size_push _))
  refine ⟨indexed.size, _, step, first.trans second, lt_size_push _, .byte ?_, fun root hread => ?_⟩
  · refine byteRead?_eq_some_iff.2 ⟨r, g.size, c, ?_, rfl, ?_, ?_⟩
    · exact congrArg Node.expr (node_push _)
    · rw [second.expr_eq (lt_size_push _)]
      exact congrArg Node.expr (node_push _)
    · have hvalue : c.value = i := by rw [Constant.value_ofNat, Nat.mod_eq_of_lt hi]
      exact Constant.word?_eq_some_iff.2 ⟨by rw [hvalue]; omega, hvalue.symm⟩
  · have index : indexed.tree g.size = .constant c :=
      first.wellFormed.tree_of_node (lt_size_push _) (node_push _)
    have tree : (indexed.push ⟨.read r g.size, 8⟩).tree indexed.size =
        .read (g.root r) (.constant c) := by
      rw [tree_push first.wellFormed second (by simp [Expr.children, indexed, lt_size_push])
        (by simpa [Expr.roots] using hr'), Expr.unfold, index]
      rfl
    rw [tree] at hread
    obtain rfl | impossible := hread
    · rfl
    · exact impossible.elim

theorem readAbove_run {start count n : Nat} {low : NodeId} (wf : g.WellFormed)
    (hr : r < g.roots.size) (hlow : low < g.size) (run : g.ByteRun (g.root r).name start count low)
    (only : ∀ root, (g.tree low).Reads root → root = g.root r) (hn : start + count + n ≤ 2 ^ 32) :
    ∃ e h, readAbove r low (start + count) n g = .ok e h ∧ g.Grows h ∧ e < h.size ∧
      h.ByteRun (g.root r).name start (count + n) e ∧
      ∀ root, (h.tree e).Reads root → root = g.root r := by
  induction n generalizing g low count with
  | zero => exact ⟨low, g, rfl, wf.grows, hlow, run, only⟩
  | succ n ih =>
    obtain ⟨byte, read, hbyte, first, hlt, hrun, honly⟩ :=
      readAt_run wf hr (show start + count < 2 ^ 32 by omega)
    have hlow' : low < read.size := first.lt_size hlow
    have second : read.Grows (read.push ⟨.concat byte low, read.width byte + read.width low⟩) :=
      first.wellFormed.grows_push (by simp [Expr.children, hlt, hlow']) (by simp [Expr.roots])
        (rfl : read.width byte + read.width low = _) (by simp [Expr.constant?])
    have hboth := first.trans second
    have hroot := hboth.isExtendedBy.root_eq hr
    have longer : (read.push ⟨.concat byte low, read.width byte + read.width low⟩).ByteRun
        (g.root r).name start (count + 1) read.size :=
      .concat (congrArg Node.expr (node_push _)) (run.grows wf hboth hlow)
        (hrun.grows first.wellFormed second hlt)
    have both : ∀ root, ((read.push ⟨.concat byte low, read.width byte + read.width low⟩).tree
        read.size).Reads root → root = g.root r := by
      intro root hread
      rw [tree_push first.wellFormed second (by simp [Expr.children, hlt, hlow'])
        (by simp [Expr.roots]), Expr.unfold, first.tree_eq wf hlow] at hread
      exact hread.elim (honly root) (only root)
    obtain ⟨e, h, hrest, grown, he, hrun', honly'⟩ := ih second.wellFormed
      (Nat.lt_of_lt_of_le hr hboth.isExtendedBy.roots_size_le) (lt_size_push _)
        (hroot.symm ▸ longer)
      (hroot.symm ▸ both) (by omega)
    rw [hroot, Nat.add_right_comm] at hrun'
    rw [hroot] at honly'
    refine ⟨e, h, ?_, hboth.trans grown, he, hrun', honly'⟩
    unfold readAbove
    rw [bind_apply_of_ok hbyte, bind_apply_of_ok (concat_eq hlt hlow')]
    exact hrest

theorem readBytes_run_of_root {i n : Nat} (wf : g.WellFormed) (hr : r < g.roots.size) (hpos : 0 < n)
    (hn : i + n ≤ 2 ^ 32) : ∃ e h, readBytes r i n g = .ok e h ∧ g.Grows h ∧ e < h.size ∧
      h.ByteRun (g.root r).name i n e ∧ ∀ root, (h.tree e).Reads root → root = g.root r := by
  obtain ⟨n, rfl⟩ : ∃ k, n = k + 1 := ⟨n - 1, by omega⟩
  obtain ⟨byte, read, hbyte, first, hlt, hrun, honly⟩ := readAt_run wf hr (show i < 2 ^ 32 by omega)
  have hroot := first.isExtendedBy.root_eq hr
  obtain ⟨e, h, hrest, grown, he, hrun', honly'⟩ := readAbove_run first.wellFormed
    (Nat.lt_of_lt_of_le hr first.isExtendedBy.roots_size_le) hlt (hroot.symm ▸ hrun)
      (hroot.symm ▸ honly)
    (n := n) (by omega)
  rw [hroot, Nat.add_comm] at hrun'
  rw [hroot] at honly'
  refine ⟨e, h, ?_, first.trans grown, he, hrun', honly'⟩
  unfold readBytes
  exact (bind_apply_of_ok hbyte).trans hrest

theorem readBytes_run {i n : Nat} (wf : g.WellFormed) (hr : r < g.roots.size) (hpos : 0 < n)
    (hn : i + n ≤ 2 ^ 32) : ∃ e h, readBytes r i n g = .ok e h ∧ g.Grows h ∧ e < h.size ∧
      h.ByteRun (g.root r).name i n e := by
  obtain ⟨e, h, read, grown, he, run, -⟩ := readBytes_run_of_root wf hr hpos hn
  exact ⟨e, h, read, grown, he, run⟩

end Build

end BitvectorCode
