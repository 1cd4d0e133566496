import BitvectorCode.Proofs.Rewrite.NarrowExtract

/-!
# What an extract of a concat is narrowed to

The bits of an extract of a concat are found in the tree of concats below it. They are exactly those
of a part, and the outermost such part is the answer; or they lie inside one leaf, and the answer is
an extract of it; or they are refused. Where the extract has a value, the answer has the same.
Narrowing the answer again changes it exactly if it is a leaf that is itself an extract of a concat.
-/

namespace BitvectorCode

namespace Graph

def extractsConcat (g : Graph) (e : NodeId) : Bool :=
  match g.expr e with
  | .extract inner _ _ => (g.expr inner).isConcat
  | _ => false

theorem extractsConcat_iff {g : Graph} {e : NodeId} : g.extractsConcat e ↔
    ∃ top offset width, g.expr e = .extract top offset width ∧ (g.expr top).isConcat := by
  unfold extractsConcat
  cases g.expr e <;> simp

/-- The outcomes of narrowing an extract of a concat `top`: the outermost part that has exactly the
bits, an extract of the leaf that holds them, or a refusal at the concat with bits of both operands
among them. -/
inductive Narrowed (g : Graph) (top : NodeId) (offset width : Nat) :
    EStateM.Result Error Graph NodeId → Prop
  | part {part : NodeId} (exact : g.IsOutermost top offset width part) :
      Narrowed g top offset width (.ok part g)
  | leaf {start : Nat} {leaf : NodeId} (holds : g.HoldsRange top offset width start leaf)
      (isLeaf : ¬ (g.expr leaf).isConcat)
      (none : ∀ other, g.PartAt top offset other → g.width other ≠ width) :
      Narrowed g top offset width
        (.ok g.size (g.push ⟨.extract leaf (offset - start) width, width⟩))
  | refused {start : Nat} {part high low : NodeId}
      (holds : g.HoldsRange top offset width start part) (hx : g.expr part = .concat high low)
      (fromLow : offset < start + g.width low) (toHigh : start + g.width low < offset + width)
      (others : ∀ o other, g.HoldsRange top offset width o other →
        (g.expr other).isConcat ∧ (o = offset → g.width other ≠ width)) :
      Narrowed g top offset width (.error (.straddlesConcat (offset - start) width) g)

namespace Narrowed

variable {g : Graph} {top : NodeId} {offset width : Nat}
    {result : EStateM.Result Error Graph NodeId}

theorem exists_ok_iff (h : g.Narrowed top offset width result) (wf : g.WellFormed) :
    (∃ r k, result = .ok r k) ↔
      (∃ start leaf, (start, leaf) ∈ g.leaves top ∧ start ≤ offset ∧
        offset + width ≤ start + g.width leaf) ∨
        ∃ part, g.PartAt top offset part ∧ (g.expr part).isConcat ∧ g.width part = width := by
  simp only [wf.mem_leaves_iff]
  cases h with
  | @part part exact =>
    refine iff_of_true ⟨_, _, rfl⟩ ?_
    by_cases hc : (g.expr part).isConcat
    · exact .inr ⟨part, exact.partAt, hc, exact.width_eq⟩
    · have inside := exact.partAt.holdsRange exact.width_eq
      exact .inl ⟨offset, part, ⟨exact.partAt, hc⟩, inside.start_le, inside.le_end⟩
  | @leaf start leaf holds isLeaf none =>
    exact iff_of_true ⟨_, _, rfl⟩
      (.inl ⟨start, leaf, ⟨holds.partAt, isLeaf⟩, holds.start_le, holds.le_end⟩)
  | refused holds hx fromLow toHigh others =>
    refine iff_of_false (by rintro ⟨r, k, ⟨⟩⟩) ?_
    rintro (⟨start, leaf, ⟨hpart, isLeaf⟩, hstart, hend⟩ | ⟨part, hpart, -, hwidth⟩)
    · exact isLeaf (others start leaf ⟨hpart, hstart, hend⟩).1
    · exact (others offset part (hpart.holdsRange hwidth)).2 rfl hwidth

theorem of_partAt (h : g.Narrowed top offset width result) {other : NodeId}
    (hpart : g.PartAt top offset other) (hwidth : g.width other = width) :
    ∃ part, g.IsOutermost top offset width part ∧ result = .ok part g := by
  cases h with
  | @part part exact => exact ⟨part, exact, rfl⟩
  | leaf holds isLeaf none => exact absurd hwidth (none other hpart)
  | refused holds hx fromLow toHigh others =>
    exact absurd hwidth ((others offset other (hpart.holdsRange hwidth)).2 rfl)

theorem of_leaf (h : g.Narrowed top offset width result) (wf : g.WellFormed) (ht : top < g.size)
    (hw : 0 < width) {start : Nat} {leaf : NodeId}
    (holds : g.HoldsRange top offset width start leaf) (isLeaf : ¬ (g.expr leaf).isConcat)
    (none : ∀ other, g.PartAt top offset other → g.width other ≠ width) :
    result = .ok g.size (g.push ⟨.extract leaf (offset - start) width, width⟩) := by
  cases h with
  | @part part exact => exact absurd exact.width_eq (none part exact.partAt)
  | leaf holds' isLeaf' =>
    obtain ⟨rfl, rfl⟩ := wf.leaf_unique ht hw holds isLeaf holds' isLeaf'
    rfl
  | refused holds' hx fromLow toHigh others => exact absurd (others start leaf holds).1 isLeaf

theorem of_error (h : g.Narrowed top offset width result) {err : Error} {k : Graph}
    (herr : result = .error err k) :
    k = g ∧ ∃ start part high low, g.PartAt top start part ∧ g.expr part = .concat high low ∧
      start ≤ offset ∧ offset < start + g.width low ∧ start + g.width low < offset + width ∧
      offset + width ≤ start + g.width part ∧ err = .straddlesConcat (offset - start) width := by
  cases h with
  | part | leaf => cases herr
  | @refused start part high low holds hx fromLow toHigh others =>
    cases herr
    exact ⟨rfl, start, part, high, low, holds.partAt, hx, holds.start_le, fromLow, toHigh,
      holds.le_end, rfl⟩

end Narrowed

end Graph

namespace Build

variable {g h : Graph} {e top r : NodeId} {offset width : Nat}

theorem narrowExtract_of_not_extractsConcat (hc : ¬ g.extractsConcat e) :
    narrowExtract e g = .ok e g := by
  unfold narrowExtract
  rw [get_bind_apply]
  unfold Graph.extractsConcat at hc
  cases hx : g.expr e with
  | extract inner offset width =>
    rw [hx] at hc
    simp only [hc]
    rfl
  | _ => rfl

theorem narrowExtract_eq_part (hx : g.expr e = .extract top offset width)
    (hc : (g.expr top).isConcat) :
    narrowExtract e g = match g.part top offset width with
      | .error err => .error err g
      | .ok (part, o) =>
        if o = 0 ∧ width = g.width part then .ok part g else extract part o width g := by
  unfold narrowExtract
  rw [get_bind_apply, hx]
  simp only [hc, if_true]
  cases g.part top offset width with
  | error err => rfl
  | ok found =>
    dsimp only
    split <;> rfl

theorem narrowExtract_narrowed (wf : g.WellFormed) (he : e < g.size)
    (hx : g.expr e = .extract top offset width) (hc : (g.expr top).isConcat) :
    g.Narrowed top offset width (narrowExtract e g) := by
  obtain ⟨ht, hin, hw, -⟩ := wf.extract_operand he hx
  have ht := Nat.lt_trans ht he
  rw [narrowExtract_eq_part hx hc]
  have answers := Graph.part_answers wf ht hw hin
  generalize g.part top offset width = answer at answers
  cases answers with
  | @found start part holds stops outermost =>
    have hstart := holds.start_le
    have hend := holds.le_end
    dsimp only
    split
    · next hall =>
      obtain rfl : start = offset := by omega
      exact .part ⟨holds.partAt, hall.2.symm, fun other hp hwo => (outermost other hp hwo).2⟩
    · next hall =>
      have isLeaf : ¬ (g.expr part).isConcat := fun hpc => by
        have := stops hpc
        omega
      have none : ∀ other, g.PartAt top offset other → g.width other ≠ width := by
        intro other hp hwo
        obtain ⟨rfl, hpart⟩ := outermost other hp hwo
        obtain ⟨-, rfl⟩ := (Graph.partAt_iff_of_not_isConcat isLeaf).1 hpart
        exact hall ⟨Nat.sub_self _, hwo.symm⟩
      rw [(wf.extract (wf.inside_of_partAt ht holds.partAt).1 (by omega) hw).1]
      exact .leaf holds isLeaf none
  | straddles holds hx' fromLow toHigh others => exact .refused holds hx' fromLow toHigh others

theorem narrowExtract_value (wf : g.WellFormed) (he : e < g.size)
    (hx : g.expr e = .extract top offset width) (hok : narrowExtract e g = .ok r h) :
    h.width r = g.width e ∧ ∀ bytes c, (g.tree e).eval bytes = .ok c ↔
      (∀ start leaf, (start, leaf) ∈ g.leaves top → ∃ d, (g.tree leaf).eval bytes = .ok d) ∧
        (h.tree r).eval bytes = .ok c := by
  obtain ⟨ht, hin, -, -⟩ := wf.extract_operand he hx
  have ht := Nat.lt_trans ht he
  have htree := wf.tree_of_extract he hx
  obtain ⟨-, -, hwidth, agrees⟩ := (narrowExtract_ensures wf he).of_ok rfl hok
  refine ⟨hwidth, fun bytes c => ⟨fun hc => ?_, fun ⟨leaves, hc⟩ => ?_⟩⟩
  · have hc' := htree ▸ hc
    obtain ⟨d, hd, -⟩ := Tree.eval_extract_eq_ok_iff.1 hc'
    exact ⟨(wf.exists_eval_iff_leaves ht).1 ⟨d, hd⟩, agrees bytes c hc⟩
  · obtain ⟨d, hd⟩ := (wf.exists_eval_iff_leaves ht).2 leaves
    have hbits := (Tree.eval_fits (wf.wellSorted_tree ht) hd).1
    have value : (g.tree e).eval bytes = .ok (d.slice offset width) := by
      rw [htree]
      exact Tree.eval_extract_eq_ok_iff.2 ⟨d, hd, by rw [hbits, wf.width_tree ht]; exact hin, rfl⟩
    have := (agrees bytes _ value).symm.trans hc
    rwa [← Except.ok.inj this]

/-- The bits of an extract of a concat. It is narrowed if they lie in one leaf or are exactly those
of a concat in the tree, and refused otherwise. The answer is the outermost part that has exactly
these bits; if there is none, it is a new extract of the leaf. It has the width of the extract, and
its value where all leaves have a value. -/
theorem narrowExtract_of_concat (wf : g.WellFormed) (he : e < g.size)
    (hx : g.expr e = .extract top offset width) (hc : (g.expr top).isConcat) :
    ((∃ r h, narrowExtract e g = .ok r h) ↔
      (∃ start leaf, (start, leaf) ∈ g.leaves top ∧ start ≤ offset ∧
        offset + width ≤ start + g.width leaf) ∨
        ∃ part, g.PartAt top offset part ∧ (g.expr part).isConcat ∧ g.width part = width) ∧
    (∀ err h, narrowExtract e g = .error err h → h = g ∧
      ∃ start part high low, g.PartAt top start part ∧ g.expr part = .concat high low ∧
        start ≤ offset ∧ offset < start + g.width low ∧ start + g.width low < offset + width ∧
        offset + width ≤ start + g.width part ∧ err = .straddlesConcat (offset - start) width) ∧
    (∀ other, g.PartAt top offset other → g.width other = width →
      ∃ part, g.IsOutermost top offset width part ∧ narrowExtract e g = .ok part g) ∧
    (∀ start leaf, (start, leaf) ∈ g.leaves top → start ≤ offset →
      offset + width ≤ start + g.width leaf →
      (∀ other, g.PartAt top offset other → g.width other ≠ width) →
      narrowExtract e g = .ok g.size (g.push ⟨.extract leaf (offset - start) width, width⟩)) ∧
    ∀ r h, narrowExtract e g = .ok r h → h.width r = g.width e ∧
      ∀ bytes c, (g.tree e).eval bytes = .ok c ↔
        (∀ start leaf, (start, leaf) ∈ g.leaves top → ∃ d, (g.tree leaf).eval bytes = .ok d) ∧
          (h.tree r).eval bytes = .ok c := by
  obtain ⟨ht, -, hw, -⟩ := wf.extract_operand he hx
  have narrowed := narrowExtract_narrowed wf he hx hc
  refine ⟨narrowed.exists_ok_iff wf, fun err h herr => narrowed.of_error herr,
    fun other hpart hwidth => narrowed.of_partAt hpart hwidth,
      fun start leaf hleaf hstart hend none => ?_,
    fun r h hok => narrowExtract_value wf he hx hok⟩
  obtain ⟨hpart, isLeaf⟩ := wf.mem_leaves_iff.1 hleaf
  exact narrowed.of_leaf wf (Nat.lt_trans ht he) hw ⟨hpart, hstart, hend⟩ isLeaf none

/-- Bits of a sum below two concats are narrowed to an extract of the sum. -/
theorem narrowExtract_of_nested_sum :
    let g : Graph := {
      nodes := #[⟨.constant ⟨0, 32⟩, 32⟩, ⟨.read 0 0, 8⟩, ⟨.constant ⟨1, 8⟩, 8⟩,
        ⟨.binary .add 1 2, 8⟩, ⟨.concat 1 3, 16⟩, ⟨.concat 2 4, 24⟩, ⟨.extract 5 2 4, 4⟩]
      roots := #[.symbolic "packet" 8] }
    g.WellFormed ∧ 6 < g.size ∧ g.expr 6 = .extract 5 2 4 ∧ (g.expr 5).isConcat ∧
      g.leaves 5 = [(16, 2), (8, 1), (0, 3)] ∧ (∀ other, g.PartAt 5 2 other → g.width other ≠ 4) ∧
      narrowExtract 6 g = .ok 7 (g.push ⟨.extract 3 2 4, 4⟩) := by
  intro g
  have wf : g.WellFormed := by decide +kernel
  have he : 6 < g.size := by decide
  have leaves : g.leaves 5 = [(16, 2), (8, 1), (0, 3)] := by decide +kernel
  have widths : ∀ other ≤ 5, g.width other ≠ 4 := by decide
  have none : ∀ other, g.PartAt 5 2 other → g.width other ≠ 4 := fun other h =>
    widths other (wf.le_of_partAt h)
  obtain ⟨-, -, -, ofLeaf, -⟩ := narrowExtract_of_concat wf he rfl rfl
  exact ⟨wf, he, rfl, rfl, leaves, none,
    ofLeaf 0 3 (by rw [leaves]; decide) (by decide) (by decide) none⟩

theorem narrowExtract_eq_self_iff (wf : g.WellFormed) (he : e < g.size) :
    narrowExtract e g = .ok e g ↔ ¬ g.extractsConcat e := by
  refine ⟨fun hself hc => ?_, narrowExtract_of_not_extractsConcat⟩
  obtain ⟨top, offset, width, hx, hc⟩ := Graph.extractsConcat_iff.1 hc
  have ht := (wf.extract_operand he hx).1
  have narrowed := narrowExtract_narrowed wf he hx hc
  rw [hself] at narrowed
  generalize hr : EStateM.Result.ok e g = result at narrowed
  cases narrowed with
  | part exact =>
    cases hr
    exact absurd (wf.le_of_partAt exact.partAt) (Nat.not_le.2 ht)
  | leaf =>
    have := (EStateM.Result.ok.inj hr).1
    exact Nat.lt_irrefl _ (this ▸ he)
  | refused => cases hr

/-- The answer is an extract of a concat only if it is the outermost part with exactly the bits. -/
theorem exists_leaf_of_extractsConcat (wf : g.WellFormed) (he : e < g.size)
    (hok : narrowExtract e g = .ok r h) (hrc : h.extractsConcat r) :
    ∃ top offset width leaf, g.expr e = .extract top offset width ∧ (g.expr top).isConcat ∧
      g.IsOutermost top offset width leaf ∧ g.extractsConcat leaf := by
  by_cases hec : g.extractsConcat e
  · obtain ⟨top, offset, width, hx, hc⟩ := Graph.extractsConcat_iff.1 hec
    have ht := Nat.lt_trans (wf.extract_operand he hx).1 he
    have narrowed := narrowExtract_narrowed wf he hx hc
    have grown := ((narrowExtract_ensures wf he).of_ok rfl hok).1
    rw [hok] at narrowed
    generalize hr : EStateM.Result.ok r h = result at narrowed
    cases narrowed with
    | @part part exact =>
      cases hr
      exact ⟨top, offset, width, r, hx, hc, exact, hrc⟩
    | @leaf start leaf holds isLeaf =>
      cases hr
      obtain ⟨inner, o, w, hx', hc'⟩ := Graph.extractsConcat_iff.1 hrc
      rw [Graph.expr, Graph.node_push] at hx'
      cases hx'
      rw [grown.expr_eq (wf.inside_of_partAt ht holds.partAt).1] at hc'
      exact absurd hc' isLeaf
    | refused => cases hr
  · rw [narrowExtract_of_not_extractsConcat hec] at hok
    cases hok
    exact absurd hrc hec

/-- Narrowing an answer again changes nothing, unless the answer is a leaf with exactly the bits of
an extract of a concat and is an extract of a concat itself. -/
theorem narrowExtract_again_iff (wf : g.WellFormed) (he : e < g.size)
    (hok : narrowExtract e g = .ok r h) :
    narrowExtract r h = .ok r h ↔
      ¬ ∃ top offset width leaf, g.expr e = .extract top offset width ∧ (g.expr top).isConcat ∧
        g.IsOutermost top offset width leaf ∧ g.extractsConcat leaf := by
  obtain ⟨grown, hr, -⟩ := (narrowExtract_ensures wf he).of_ok rfl hok
  rw [narrowExtract_eq_self_iff grown.wellFormed hr]
  refine not_congr ⟨exists_leaf_of_extractsConcat wf he hok, ?_⟩
  rintro ⟨top, offset, width, leaf, hx, hc, exact, hleaf⟩
  have narrowed := narrowExtract_narrowed wf he hx hc
  obtain ⟨part, exact', hpart⟩ := narrowed.of_partAt exact.partAt exact.width_eq
  obtain rfl := wf.isOutermost_unique exact exact'
  cases hok.symm.trans hpart
  exact hleaf

/-- A leaf that is an extract of a sum is the answer, and is narrowed no further. -/
theorem narrowExtract_again_of_extracted_sum :
    let g : Graph := {
      nodes := #[⟨.constant ⟨0x1234, 16⟩, 16⟩, ⟨.constant ⟨0x5678, 16⟩, 16⟩, ⟨.binary .add 0 1, 16⟩,
        ⟨.extract 2 4 8, 8⟩, ⟨.concat 1 3, 24⟩, ⟨.extract 4 0 8, 8⟩] }
    g.WellFormed ∧ 5 < g.size ∧ narrowExtract 5 g = .ok 3 g ∧
      (¬ ∃ top offset width leaf, g.expr 5 = .extract top offset width ∧ (g.expr top).isConcat ∧
        g.IsOutermost top offset width leaf ∧ g.extractsConcat leaf) ∧
      narrowExtract 3 g = .ok 3 g := by
  intro g
  have wf : g.WellFormed := by decide +kernel
  have he : 5 < g.size := by decide
  have once : narrowExtract 5 g = .ok 3 g := rfl
  have plain : ∀ leaf ≤ 4, ¬ g.extractsConcat leaf := by decide
  have other : ¬ ∃ top offset width leaf, g.expr 5 = .extract top offset width ∧
      (g.expr top).isConcat ∧
      g.IsOutermost top offset width leaf ∧ g.extractsConcat leaf := by
    rintro ⟨top, offset, width, leaf, hx, -, exact, hleaf⟩
    cases hx
    exact plain leaf (wf.le_of_partAt exact.partAt) hleaf
  exact ⟨wf, he, once, other, (narrowExtract_again_iff wf he once).2 other⟩

/-- An extract of a concat over a leaf with exactly its bits is narrowed to the leaf. If that is an
extract of a concat again, narrowing it once more goes on to its part. -/
theorem narrowExtract_of_extracted_leaf :
    let g : Graph := {
      nodes := #[⟨.constant ⟨0x11, 8⟩, 8⟩, ⟨.constant ⟨0x22, 8⟩, 8⟩, ⟨.concat 0 1, 16⟩,
        ⟨.extract 2 0 8, 8⟩, ⟨.concat 0 3, 16⟩, ⟨.extract 4 0 8, 8⟩] }
    g.WellFormed ∧ 5 < g.size ∧ narrowExtract 5 g = .ok 3 g ∧ narrowExtract 3 g = .ok 1 g := by
  intro g
  exact ⟨by decide +kernel, by decide, rfl, rfl⟩

end Build

end BitvectorCode
