import BitvectorCode.Lowering.Diff
import BitvectorCode.Proofs.Graph.ConcatTree
import BitvectorCode.Proofs.Graph.Growth

/-!
# Slices of expressions

The search in a tree of concats ends at a part that holds the bits, a leaf or the outermost part
with exactly these bits, or at a concat where they lie on both sides. So the narrowed expression has
the value of the extract wherever that has one. A slice has the bits it is asked for, whether it is
the whole expression, a part of a concat or an extract across a boundary.
-/

namespace BitvectorCode

namespace Tree

variable {s t u : Tree} {bytes : Bytes} {offset width offset' width' : Nat}

/-- Wherever `t` has a value, `s` has the bits of it from `offset` on. -/
def IsSlice (s t : Tree) (offset width : Nat) : Prop :=
  ∀ (bytes : Bytes) (c : Constant), t.eval bytes = .ok c → s.eval bytes = .ok (c.slice offset width)

theorem isSlice_self (h : t.WellSorted) : t.IsSlice t 0 t.width := by
  intro bytes c hc
  obtain ⟨hbits, hvalid⟩ := eval_fits h hc
  rw [← hbits, Constant.slice_all hvalid, hc]

theorem isSlice_extract (h : t.WellSorted) (hin : offset + width ≤ t.width) :
    (extract t offset width).IsSlice t offset width := by
  intro bytes c hc
  have hbits := (eval_fits h hc).1
  have hext : (extract t offset width).eval bytes = c.extract offset width := by
    simp only [eval, hc]
    rfl
  rw [hext, Constant.extract_eq_slice (hbits ▸ hin)]

theorem IsSlice.trans (hs : s.IsSlice t offset' width') (ht : t.IsSlice u offset width)
    (h : offset' + width' ≤ width) : s.IsSlice u (offset + offset') width' := by
  intro bytes c hc
  rw [hs bytes _ (ht bytes c hc), Constant.slice_slice h]

/-- Wherever `t` has a value, `part` has one too, whose bits from `partOffset` on are those of `t`
from `offset` on. -/
def HoldsBits (part : Tree) (partOffset : Nat) (t : Tree) (offset width : Nat) : Prop :=
  ∀ (bytes : Bytes) (c : Constant), t.eval bytes = .ok c →
    ∃ d, part.eval bytes = .ok d ∧ d.slice partOffset width = c.slice offset width

theorem holdsBits_self : t.HoldsBits offset t offset width := fun _ c hc => ⟨c, hc, rfl⟩

theorem HoldsBits.concat_low {part low : Tree} {o : Nat} (h : part.HoldsBits o low offset width)
    (hlow : low.WellSorted) (hin : offset + width ≤ low.width) (high : Tree) :
    part.HoldsBits o (concat high low) offset width := by
  intro bytes c hc
  obtain ⟨hv, lv, -, hl, rfl⟩ := eval_concat_eq_ok_iff.1 hc
  obtain ⟨d, hd, hslice⟩ := h bytes lv hl
  exact ⟨d, hd, hslice.trans (Constant.slice_concat_low ((eval_fits hlow hl).1 ▸ hin)).symm⟩

theorem HoldsBits.concat_high {part high low : Tree} {o : Nat} (hhigh : high.WellSorted)
    (hlow : low.WellSorted) (h : part.HoldsBits o high (offset - low.width) width)
    (hfrom : low.width ≤ offset) (hin : offset - low.width + width ≤ high.width) :
    part.HoldsBits o (concat high low) offset width := by
  intro bytes c hc
  obtain ⟨hv, lv, hh, hl, rfl⟩ := eval_concat_eq_ok_iff.1 hc
  obtain ⟨d, hd, hslice⟩ := h bytes hv hh
  obtain ⟨hbits, hvalid⟩ := eval_fits hlow hl
  have hhbits := (eval_fits hhigh hh).1
  refine ⟨d, hd, hslice.trans ?_⟩
  rw [← hbits] at hfrom hin ⊢
  exact (Constant.slice_concat_high hvalid hfrom (hhbits ▸ hin)).symm

/-- Wherever `t` has a value, `s` has the same. -/
def Agrees (s t : Tree) : Prop :=
  ∀ (bytes : Bytes) (c : Constant), t.eval bytes = .ok c → s.eval bytes = .ok c

theorem HoldsBits.agrees_extract {part : Tree} {o : Nat} (h : part.HoldsBits o t offset width)
    (hs : part.WellSorted) (hin : o + width ≤ part.width) :
    (extract part o width).Agrees (extract t offset width) := by
  intro bytes c hc
  obtain ⟨d, hd, -, rfl⟩ := eval_extract_eq_ok_iff.1 hc
  obtain ⟨p, hp, hslice⟩ := h bytes d hd
  exact eval_extract_eq_ok_iff.2 ⟨p, hp, (eval_fits hs hp).1 ▸ hin, hslice.symm⟩

theorem HoldsBits.agrees_whole {part : Tree} (h : part.HoldsBits 0 t offset part.width)
    (hs : part.WellSorted) : part.Agrees (extract t offset part.width) := by
  intro bytes c hc
  obtain ⟨d, hd, -, rfl⟩ := eval_extract_eq_ok_iff.1 hc
  obtain ⟨p, hp, hslice⟩ := h bytes d hd
  obtain ⟨hbits, hvalid⟩ := eval_fits hs hp
  rw [hp, ← hslice, ← hbits, Constant.slice_all hvalid]

end Tree

namespace Graph

variable {g : Graph} {e high low part : NodeId} {offset width start : Nat}
variable {answer : Except Error (NodeId × Nat)}

theorem HoldsRange.holdsBits (wf : g.WellFormed) (he : e < g.size)
    (h : g.HoldsRange e offset width start part) :
    (g.tree part).HoldsBits (offset - start) (g.tree e) offset width := by
  obtain ⟨hpart, hstart, hend⟩ := h
  induction hpart generalizing offset with
  | whole => exact Tree.holdsBits_self
  | @high e high low part o hx hp ih =>
    obtain ⟨hhigh, hlow, -⟩ := wf.concat_operands he hx
    have hhigh := Nat.lt_trans hhigh he
    have hlow := Nat.lt_trans hlow he
    have := (wf.inside_of_partAt hhigh hp).2
    have hwl := wf.width_tree hlow
    have holds : (g.tree part).HoldsBits (offset - g.width low - o) (g.tree high)
        (offset - g.width low) width :=
      ih hhigh (by omega) (by omega)
    rw [wf.tree_of_concat he hx]
    refine Tree.HoldsBits.concat_high (wf.wellSorted_tree hhigh) (wf.wellSorted_tree hlow) ?_ ?_ ?_
    · rwa [hwl, ← Nat.sub_sub]
    · omega
    · rw [hwl, wf.width_tree hhigh]
      omega
  | @low e high low part o hx hp ih =>
    have hlow := Nat.lt_trans (wf.concat_operands he hx).2.1 he
    have := (wf.inside_of_partAt hlow hp).2
    rw [wf.tree_of_concat he hx]
    refine (ih hlow hstart hend).concat_low (wf.wellSorted_tree hlow) ?_ _
    rw [wf.width_tree hlow]
    omega

/-- What the search for a part may end in: a part that holds the bits and is a leaf or the outermost
one with exactly these bits, or a concat with bits of both operands among them. -/
inductive PartAnswer (g : Graph) (e : NodeId) (offset width : Nat) :
    Except Error (NodeId × Nat) → Prop
  | found {start : Nat} {part : NodeId} (holds : g.HoldsRange e offset width start part)
      (stops : (g.expr part).isConcat → start = offset ∧ g.width part = width)
      (outermost : ∀ other, g.PartAt e offset other → g.width other = width →
        start = offset ∧ g.PartAt part 0 other) :
      PartAnswer g e offset width (.ok (part, offset - start))
  | straddles {start : Nat} {part high low : NodeId}
      (holds : g.HoldsRange e offset width start part) (hx : g.expr part = .concat high low)
      (fromLow : offset < start + g.width low) (toHigh : start + g.width low < offset + width)
      (others : ∀ o other, g.HoldsRange e offset width o other →
        (g.expr other).isConcat ∧ (o = offset → g.width other ≠ width)) :
      PartAnswer g e offset width (.error (.straddlesConcat (offset - start) width))

theorem PartAnswer.of_high (wf : g.WellFormed) (he : e < g.size) (hx : g.expr e = .concat high low)
    (hw : 0 < width) (hwhole : ¬ (offset = 0 ∧ width = g.width e)) (hfrom : g.width low ≤ offset)
    (h : g.PartAnswer high (offset - g.width low) width answer) :
    g.PartAnswer e offset width answer := by
  cases h with
  | @found start part holds stops outermost =>
    rw [Nat.sub_sub]
    refine .found (holds.of_high hx hfrom) (fun hc => ?_) fun other hp hwo => ?_
    · obtain ⟨hstart, hwp⟩ := stops hc
      exact ⟨by omega, hwp⟩
    · obtain ⟨h0, rfl⟩ | ⟨hle, inHigh⟩ | ⟨hto, -⟩ := wf.holdsRange_concat he hx (hp.holdsRange hwo)
      · exact absurd ⟨h0, hwo.symm⟩ hwhole
      · obtain ⟨hstart, hpart⟩ := outermost other inHigh.partAt hwo
        exact ⟨by omega, hpart⟩
      · omega
  | @straddles start part high' low' holds hx' fromLow toHigh others =>
    rw [Nat.sub_sub]
    refine .straddles (holds.of_high hx hfrom) hx' (by omega) (by omega) fun o other ho => ?_
    obtain ⟨rfl, rfl⟩ | ⟨hle, inHigh⟩ | ⟨hto, -⟩ := wf.holdsRange_concat he hx ho
    · exact ⟨by rw [hx]; rfl, fun h0 hwo => hwhole ⟨h0.symm, hwo.symm⟩⟩
    · obtain ⟨hc, hne⟩ := others _ other inHigh
      exact ⟨hc, fun heq => hne (by rw [heq])⟩
    · omega

theorem PartAnswer.of_low (wf : g.WellFormed) (he : e < g.size) (hx : g.expr e = .concat high low)
    (hw : 0 < width) (hwhole : ¬ (offset = 0 ∧ width = g.width e))
    (hto : offset + width ≤ g.width low) (h : g.PartAnswer low offset width answer) :
    g.PartAnswer e offset width answer := by
  cases h with
  | @found start part holds stops outermost =>
    refine .found (holds.of_low hx) stops fun other hp hwo => ?_
    obtain ⟨h0, rfl⟩ | ⟨hle, -⟩ | ⟨-, inLow⟩ := wf.holdsRange_concat he hx (hp.holdsRange hwo)
    · exact absurd ⟨h0, hwo.symm⟩ hwhole
    · omega
    · exact outermost other inLow.partAt hwo
  | @straddles start part high' low' holds hx' fromLow toHigh others =>
    refine .straddles (holds.of_low hx) hx' fromLow toHigh fun o other ho => ?_
    obtain ⟨rfl, rfl⟩ | ⟨hle, inHigh⟩ | ⟨-, inLow⟩ := wf.holdsRange_concat he hx ho
    · exact ⟨by rw [hx]; rfl, fun h0 hwo => hwhole ⟨h0.symm, hwo.symm⟩⟩
    · have := ho.start_le
      omega
    · exact others o other inLow

theorem partAnswer_of_leaf (hc : ¬ (g.expr e).isConcat) (hin : offset + width ≤ g.width e) :
    g.PartAnswer e offset width (.ok (e, offset)) := by
  have here : g.HoldsRange e offset width 0 e := ⟨.whole e, Nat.zero_le offset, by omega⟩
  refine .found here (fun h => absurd h hc) fun other hp hwo => ?_
  obtain ⟨h0, rfl⟩ := (partAt_iff_of_not_isConcat hc).1 hp
  exact ⟨h0.symm, .whole other⟩

/-- The search for a part ends in an answer as described. The induction is on the steps, which bound
the position of the node. -/
theorem partWithin_answers (wf : g.WellFormed) {steps : Nat} (hs : e < steps) (he : e < g.size)
    (hw : 0 < width) (hin : offset + width ≤ g.width e) :
    g.PartAnswer e offset width (g.partWithin steps e offset width) := by
  induction steps generalizing e offset with
  | zero => exact absurd hs (Nat.not_lt_zero e)
  | succ steps ih =>
    unfold partWithin
    cases hx : g.expr e with
    | concat high low =>
      have hc : (g.expr e).isConcat := by rw [hx]; rfl
      obtain ⟨hhigh, hlow, hwidth⟩ := wf.concat_operands he hx
      have here : g.HoldsRange e offset width 0 e := ⟨.whole e, Nat.zero_le offset, by omega⟩
      dsimp only
      split
      · next hall =>
        obtain ⟨rfl, rfl⟩ := hall
        exact .found here (fun _ => ⟨rfl, rfl⟩) fun other hp _ => ⟨rfl, hp⟩
      next hwhole =>
      split
      · next hto => exact (ih (by lia) (by lia) hto).of_low wf he hx hw hwhole hto
      next hlow =>
      split
      · next hfrom => exact (ih (by lia) (by lia) hfrom.2).of_high wf he hx hw hwhole hfrom.1
      next hhigh =>
      refine .straddles here hx (by omega) (by omega) fun o other ho => ?_
      obtain ⟨rfl, rfl⟩ | ⟨hle, inHigh⟩ | ⟨hto, -⟩ := wf.holdsRange_concat he hx ho
      · exact ⟨hc, fun h0 hwo => hwhole ⟨h0.symm, hwo.symm⟩⟩
      · have := (wf.inside_of_partAt (by lia) inHigh.partAt).2
        have := ho.start_le
        have := inHigh.le_end
        omega
      · exact absurd hto hlow
    | _ => exact partAnswer_of_leaf (by rw [hx]; nofun) hin

theorem lt_part_steps (he : e < g.size) (offset : Nat) : e < g.size * (offset + 1) + 1 := by
  have : g.size ≤ g.size * (offset + 1) := Nat.le_mul_of_pos_right _ (Nat.succ_pos offset)
  exact Nat.lt_succ_of_lt (Nat.lt_of_lt_of_le he this)

theorem part_answers (wf : g.WellFormed) (he : e < g.size) (hw : 0 < width)
    (hin : offset + width ≤ g.width e) : g.PartAnswer e offset width (g.part e offset width) :=
  partWithin_answers wf (lt_part_steps he offset) he hw hin

/-- The search for a part ends at a part that holds the bits, unless they lie on both sides of a
boundary. -/
theorem part_spec (wf : g.WellFormed) (he : e < g.size) (hw : 0 < width)
    (hin : offset + width ≤ g.width e) :
    (∃ part o, g.part e offset width = .ok (part, o) ∧ part < g.size ∧
      o + width ≤ g.width part ∧ (g.tree part).HoldsBits o (g.tree e) offset width) ∨
    ∃ o, g.part e offset width = .error (.straddlesConcat o width) := by
  have answers := part_answers wf he hw hin
  generalize g.part e offset width = answer at answers
  cases answers with
  | found holds stops outermost =>
    have := holds.start_le
    have := holds.le_end
    exact .inl ⟨_, _, rfl, (wf.inside_of_partAt he holds.partAt).1, by omega, holds.holdsBits wf he⟩
  | straddles holds hx fromLow toHigh others => exact .inr ⟨_, rfl⟩

theorem WellFormed.extract_operand (wf : g.WellFormed) (he : e < g.size) {inner : NodeId}
    (hx : g.expr e = .extract inner offset width) :
    inner < e ∧ offset + width ≤ g.width inner ∧ 0 < width ∧ g.width e = width := by
  refine ⟨wf.child_lt (by simp [hx, Expr.children]), ?_⟩
  have hs := wf.sortRule he
  rwa [hx] at hs

theorem WellFormed.tree_of_extract (wf : g.WellFormed) (he : e < g.size) {inner : NodeId}
    (hx : g.expr e = .extract inner offset width) :
    g.tree e = .extract (g.tree inner) offset width := by
  rw [wf.tree_eq he, hx]
  rfl

theorem WellFormed.extract (wf : g.WellFormed) (he : e < g.size) (hin : offset + width ≤ g.width e)
    (hw : 0 < width) :
    Build.extract e offset width g = .ok g.size (g.push ⟨.extract e offset width, width⟩) ∧
      g.Grows (g.push ⟨.extract e offset width, width⟩) := by
  have hc : ∀ child ∈ (Expr.extract e offset width).children, child < g.size := by
    simpa [Expr.children] using he
  have hs : (Expr.extract e offset width).SortRule g.width width := ⟨hin, hw, rfl⟩
  exact ⟨Build.add_eq hc hs, wf.push _ ⟨hc, by simp [Expr.roots], sortOf_eq_ok_iff.2 ⟨hc, hs⟩,
    by simp [Expr.constant?]⟩⟩

end Graph

namespace Build

variable {g : Graph} {e : NodeId}

/-- Narrowing keeps the value of an expression, and fails only at bits on both sides of a
boundary. -/
theorem narrowExtract_ensures (wf : g.WellFormed) (he : e < g.size) :
    Ensures (· = g) (narrowExtract e)
      (fun r h => g.Grows h ∧ r < h.size ∧ h.width r = g.width e ∧ (h.tree r).Agrees (g.tree e))
      fun err h => h = g ∧ ∃ offset width, err = .straddlesConcat offset width := by
  apply Ensures.bind_get
  intro s hs
  subst hs
  have same : Ensures (· = s) (pure e : Build NodeId)
      (fun r h => s.Grows h ∧ r < h.size ∧ h.width r = s.width e ∧ (h.tree r).Agrees (s.tree e))
      fun err h => h = s ∧ ∃ offset width, err = .straddlesConcat offset width := by
    rintro _ rfl
    exact ⟨wf.grows, he, rfl, fun _ _ h => h⟩
  cases hx : s.expr e with
  | extract inner offset width =>
    obtain ⟨hi, hin, hw, hwe⟩ := wf.extract_operand he hx
    have hi := Nat.lt_trans hi he
    have htree := wf.tree_of_extract he hx
    dsimp only
    split
    · rcases Graph.part_spec wf hi hw hin with ⟨part, o, hpart, hlt, hinside, hholds⟩ | ⟨o, herr⟩
      · rw [hpart]
        dsimp only
        split
        · next hall =>
          obtain ⟨rfl, rfl⟩ := hall
          rintro _ rfl
          refine ⟨wf.grows, hlt, hwe.symm, ?_⟩
          rw [htree]
          rw [← wf.width_tree hlt] at hholds ⊢
          exact hholds.agrees_whole (wf.wellSorted_tree hlt)
        · obtain ⟨hrun, step⟩ := wf.extract hlt hinside hw
          rintro _ rfl
          rw [hrun]
          refine ⟨step, Graph.lt_size_push _, ?_, ?_⟩
          · rw [hwe]
            simp [Graph.width, Graph.node_push]
          · rw [Graph.tree_push wf step (by simpa [Expr.children] using hlt)
              (by simp [Expr.roots]), htree]
            exact hholds.agrees_extract (wf.wellSorted_tree hlt) (wf.width_tree hlt ▸ hinside)
      · rw [herr]
        exact .throw fun _ h => ⟨h, o, width, rfl⟩
    · exact same
  | _ => exact same

theorem narrowExtract_replaces {g₀ : Graph} (he : e < g₀.size) :
    Graph.Replaces id (fun err => ∃ offset width, err = .straddlesConcat offset width) g₀ e
      (narrowExtract e) := by
  intro g grown
  refine (narrowExtract_ensures grown.wellFormed (grown.lt_size he)).start rfl (fun r h hr => ?_)
    (fun err h herr => ?_) g rfl
  · exact ⟨grown.trans hr.1, hr.2.1, hr.2.2.1.trans (grown.width_eq he)⟩
  · exact ⟨herr.1 ▸ grown, herr.2⟩

theorem slice_ensures (offset width : Nat) (wf : g.WellFormed) (he : e < g.size) :
    Ensures (· = g) (slice e offset width)
      (fun r h => g.Grows h ∧ r < h.size ∧ h.width r = width ∧ offset + width ≤ g.width e ∧
        (h.tree r).IsSlice (g.tree e) offset width)
      fun _ h => g.Grows h := by
  have sorted := wf.wellSorted_tree he
  apply Ensures.bind_get
  intro s hs
  subst hs
  split
  · next hall =>
    obtain ⟨rfl, rfl⟩ := hall
    rintro _ rfl
    refine ⟨wf.grows, he, rfl, by omega, ?_⟩
    rw [← wf.width_tree he]
    exact Tree.isSlice_self sorted
  have added : Ensures (· = s) (extract e offset width)
      (fun x h => s.Grows h ∧ x < h.size ∧ h.node x = ⟨.extract e offset width, width⟩)
      fun _ h => s.Grows h :=
    (add_ensures (by simp [Expr.constant?])).start ⟨wf.grows, by simp [Expr.roots]⟩
      (fun _ _ h => h) fun _ _ h => h
  apply added.bind
  intro x h hpost
  obtain ⟨grown, hx, hnode⟩ := hpost
  have hexpr : h.expr x = .extract e offset width := congrArg Node.expr hnode
  have hwidth : h.width x = width := congrArg Node.width hnode
  have he' : e < h.size := grown.lt_size he
  have hin := (grown.wellFormed.extract_operand hx hexpr).2.1
  rw [grown.width_eq he] at hin
  have htree := grown.wellFormed.tree_of_extract hx hexpr
  rw [grown.tree_eq wf he] at htree
  have isSlice : (h.tree x).IsSlice (s.tree e) offset width := by
    rw [htree]
    exact Tree.isSlice_extract sorted (by rw [wf.width_tree he]; exact hin)
  obtain ⟨r, k, hrun, more, hr, hw, agrees⟩ | ⟨err, k, hrun, rfl, o, w, rfl⟩ :=
    (narrowExtract_ensures grown.wellFormed hx).outcome rfl
  · simp only [hrun]
    exact ⟨grown.trans more, hr, hw.trans hwidth, hin, fun bytes c hc =>
      agrees bytes _ (isSlice bytes c hc)⟩
  · simp only [hrun]
    exact ⟨grown, hx, hwidth, hin, isSlice⟩

theorem slice_adds (offset width : Nat) {g₀ : Graph} (wf : g₀.WellFormed) (he : e < g₀.size) :
    Ensures g₀.Grows (slice e offset width)
      (fun r h => g₀.Grows h ∧ r < h.size ∧ h.width r = width ∧ offset + width ≤ g₀.width e ∧
        (h.tree r).IsSlice (g₀.tree e) offset width)
      fun _ h => g₀.Grows h := by
  intro g grown
  have now := slice_ensures offset width grown.wellFormed (grown.lt_size he)
  rw [grown.width_eq he, grown.tree_eq wf he] at now
  exact now.start rfl (fun _ _ h => ⟨grown.trans h.1, h.2⟩) (fun _ _ h => grown.trans h) g rfl

end Build

end BitvectorCode
