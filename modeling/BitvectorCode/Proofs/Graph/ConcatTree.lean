import BitvectorCode.Proofs.Eval.Evaluation

/-!
# Trees of concats

The concats at the top of an expression put it together from parts: the expression itself, the
operands of the concats, and so on down to the leaves, which are no concats. A part has its place,
the offset of its lowest bit. Bits that a part of a concat holds are held by one operand, unless the
part is the concat. The expression has a value exactly where all of its leaves have one.
-/

namespace BitvectorCode

theorem Expr.exists_concat_of_isConcat {x : Expr} (h : x.isConcat) :
    ∃ high low, x = .concat high low := by
  cases x with
  | concat high low => exact ⟨high, low, rfl⟩
  | _ => cases h

namespace Graph

/-- The part of an expression that the concats at its top put at an offset. -/
inductive PartAt (g : Graph) : NodeId → Nat → NodeId → Prop
  | whole (e : NodeId) : PartAt g e 0 e
  | high {e high low part : NodeId} {offset : Nat} (hx : g.expr e = .concat high low)
      (h : PartAt g high offset part) : PartAt g e (g.width low + offset) part
  | low {e high low part : NodeId} {offset : Nat} (hx : g.expr e = .concat high low)
      (h : PartAt g low offset part) : PartAt g e offset part

def leavesWithin (g : Graph) : (depth : Nat) → NodeId → List (Nat × NodeId)
  | 0, _ => []
  | depth + 1, e =>
    match g.expr e with
    | .concat high low =>
      (g.leavesWithin depth high).map (fun (offset, leaf) => (g.width low + offset, leaf)) ++
        g.leavesWithin depth low
    | _ => [(0, e)]

/-- What the concats at the top of an expression put together, each with its offset, from left to
right. An expression that is no concat is its own leaf. -/
def leaves (g : Graph) (e : NodeId) : List (Nat × NodeId) := g.leavesWithin (e + 1) e

structure HoldsRange (g : Graph) (e : NodeId) (offset width start : Nat)
    (part : NodeId) : Prop where
  partAt : g.PartAt e start part
  start_le : start ≤ offset
  le_end : offset + width ≤ start + g.width part

/-- The part has exactly the bits from `offset` on, and so have only parts of itself. -/
structure IsOutermost (g : Graph) (e : NodeId) (offset width : Nat) (part : NodeId) : Prop where
  partAt : g.PartAt e offset part
  width_eq : g.width part = width
  outermost : ∀ other, g.PartAt e offset other → g.width other = width → g.PartAt part 0 other

variable {g : Graph} {e high low part : NodeId} {offset width start : Nat} {bytes : Bytes}

theorem PartAt.holdsRange (h : g.PartAt e offset part) (hw : g.width part = width) :
    g.HoldsRange e offset width offset part :=
  ⟨h, Nat.le_refl offset, Nat.le_of_eq (by rw [hw])⟩

theorem HoldsRange.of_high (hx : g.expr e = .concat high low) (hfrom : g.width low ≤ offset)
    (h : g.HoldsRange high (offset - g.width low) width start part) :
    g.HoldsRange e offset width (g.width low + start) part := by
  obtain ⟨hpart, hstart, hend⟩ := h
  exact ⟨.high hx hpart, by omega, by omega⟩

theorem HoldsRange.of_low (hx : g.expr e = .concat high low)
    (h : g.HoldsRange low offset width start part) :
    g.HoldsRange e offset width start part :=
  ⟨.low hx h.partAt, h.start_le, h.le_end⟩

theorem partAt_concat_iff (hx : g.expr e = .concat high low) : g.PartAt e offset part ↔
    (offset = 0 ∧ part = e) ∨ (g.width low ≤ offset ∧ g.PartAt high (offset - g.width low) part) ∨
      g.PartAt low offset part := by
  constructor
  · intro h
    cases h with
    | whole => exact .inl ⟨rfl, rfl⟩
    | high hx' h =>
      cases hx.symm.trans hx'
      exact .inr (.inl ⟨Nat.le_add_right _ _, by rwa [Nat.add_sub_cancel_left]⟩)
    | low hx' h =>
      cases hx.symm.trans hx'
      exact .inr (.inr h)
  · rintro (⟨rfl, rfl⟩ | ⟨hle, h⟩ | h)
    · exact .whole part
    · rw [← Nat.add_sub_cancel' hle]
      exact .high hx h
    · exact .low hx h

theorem partAt_iff_of_not_isConcat (hc : ¬ (g.expr e).isConcat) :
    g.PartAt e offset part ↔ offset = 0 ∧ part = e := by
  constructor
  · intro h
    cases h with
    | whole => exact ⟨rfl, rfl⟩
    | high hx h | low hx h => exact absurd (by rw [hx]; rfl) hc
  · rintro ⟨rfl, rfl⟩
    exact .whole part

namespace WellFormed

variable (wf : g.WellFormed)
include wf

theorem concat_operands (he : e < g.size) (hx : g.expr e = .concat high low) :
    high < e ∧ low < e ∧ g.width e = g.width high + g.width low := by
  refine ⟨wf.child_lt (by simp [hx, Expr.children]), wf.child_lt (by simp [hx, Expr.children]), ?_⟩
  have hs := wf.sortRule he
  rwa [hx] at hs

theorem tree_of_concat (he : e < g.size) (hx : g.expr e = .concat high low) :
    g.tree e = .concat (g.tree high) (g.tree low) := by
  rw [wf.tree_eq he, hx]
  rfl

theorem inside_of_partAt (he : e < g.size) (h : g.PartAt e offset part) :
    part < g.size ∧ offset + g.width part ≤ g.width e := by
  induction h with
  | whole => exact ⟨he, by omega⟩
  | high hx _ ih =>
    obtain ⟨hhigh, -, hwidth⟩ := wf.concat_operands he hx
    obtain ⟨hlt, hle⟩ := ih (Nat.lt_trans hhigh he)
    exact ⟨hlt, by omega⟩
  | low hx _ ih =>
    obtain ⟨-, hlow, hwidth⟩ := wf.concat_operands he hx
    obtain ⟨hlt, hle⟩ := ih (Nat.lt_trans hlow he)
    exact ⟨hlt, by omega⟩

theorem holdsRange_concat (he : e < g.size) (hx : g.expr e = .concat high low)
    (h : g.HoldsRange e offset width start part) :
    (start = 0 ∧ part = e) ∨
      (g.width low ≤ start ∧
        g.HoldsRange high (offset - g.width low) width (start - g.width low) part) ∨
      (offset + width ≤ g.width low ∧ g.HoldsRange low offset width start part) := by
  obtain ⟨hpart, hstart, hend⟩ := h
  obtain hself | ⟨hle, hhigh⟩ | hlow := (partAt_concat_iff hx).1 hpart
  · exact .inl hself
  · exact .inr (.inl ⟨hle, hhigh, by omega, by omega⟩)
  · have := (wf.inside_of_partAt (Nat.lt_trans (wf.concat_operands he hx).2.1 he) hlow).2
    exact .inr (.inr ⟨by omega, hlow, hstart, hend⟩)

theorem le_of_partAt (h : g.PartAt e offset part) : part ≤ e := by
  induction h with
  | whole e => exact Nat.le_refl e
  | high hx _ ih | low hx _ ih =>
    exact Nat.le_of_lt (Nat.lt_of_le_of_lt ih (wf.child_lt (by simp [hx, Expr.children])))

theorem isOutermost_unique {other : NodeId} (h : g.IsOutermost e offset width part)
    (h' : g.IsOutermost e offset width other) : other = part :=
  Nat.le_antisymm (wf.le_of_partAt (h.outermost other h'.partAt h'.width_eq))
    (wf.le_of_partAt (h'.outermost part h.partAt h.width_eq))

theorem leaf_unique {other : NodeId} {o : Nat} (he : e < g.size) (hw : 0 < width)
    (h : g.HoldsRange e offset width start part) (hc : ¬ (g.expr part).isConcat)
    (h' : g.HoldsRange e offset width o other) (hc' : ¬ (g.expr other).isConcat) :
    o = start ∧ other = part := by
  induction e using Nat.strong_induction_on generalizing offset start o with
  | _ e ih =>
    by_cases hconcat : (g.expr e).isConcat
    · obtain ⟨high, low, hx⟩ := Expr.exists_concat_of_isConcat hconcat
      obtain ⟨hhigh, hlow, -⟩ := wf.concat_operands he hx
      have hstart := h.start_le
      have hstart' := h'.start_le
      obtain ⟨-, rfl⟩ | ⟨hle, inHigh⟩ | ⟨hto, inLow⟩ := wf.holdsRange_concat he hx h
      · exact absurd hconcat hc
      · obtain ⟨-, rfl⟩ | ⟨hle', inHigh'⟩ | ⟨hto', -⟩ := wf.holdsRange_concat he hx h'
        · exact absurd hconcat hc'
        · obtain ⟨ho, rfl⟩ := ih high hhigh (Nat.lt_trans hhigh he) inHigh inHigh'
          exact ⟨by omega, rfl⟩
        · omega
      · obtain ⟨-, rfl⟩ | ⟨hle', -⟩ | ⟨-, inLow'⟩ := wf.holdsRange_concat he hx h'
        · exact absurd hconcat hc'
        · omega
        · exact ih low hlow (Nat.lt_trans hlow he) inLow inLow'
    · obtain ⟨rfl, rfl⟩ := (partAt_iff_of_not_isConcat hconcat).1 h.partAt
      exact (partAt_iff_of_not_isConcat hconcat).1 h'.partAt

theorem leavesWithin_eq_of_lt {m n : Nat} (hm : e < m) (hn : e < n) :
    g.leavesWithin m e = g.leavesWithin n e := by
  induction m generalizing n e with
  | zero => exact absurd hm (Nat.not_lt_zero e)
  | succ m ih =>
    obtain ⟨n, rfl⟩ : ∃ k, n = k + 1 := ⟨n - 1, by lia⟩
    unfold leavesWithin
    cases hx : g.expr e with
    | concat high low =>
      have hhigh : high < e := wf.child_lt (by simp [hx, Expr.children])
      have hlow : low < e := wf.child_lt (by simp [hx, Expr.children])
      dsimp only
      rw [ih (n := n) (e := high) (by lia) (by lia), ih (n := n) (e := low) (by lia) (by lia)]
    | _ => rfl

theorem leaves_of_concat (hx : g.expr e = .concat high low) : g.leaves e =
    (g.leaves high).map (fun (offset, leaf) => (g.width low + offset, leaf)) ++ g.leaves low := by
  have hhigh : high < e := wf.child_lt (by simp [hx, Expr.children])
  have hlow : low < e := wf.child_lt (by simp [hx, Expr.children])
  have step : g.leaves e =
      (g.leavesWithin e high).map (fun (offset, leaf) => (g.width low + offset, leaf)) ++
      g.leavesWithin e low := by
    rw [leaves, leavesWithin, hx]
  rw [step, wf.leavesWithin_eq_of_lt hhigh (Nat.lt_succ_self high),
    wf.leavesWithin_eq_of_lt hlow (Nat.lt_succ_self low)]
  rfl

theorem mem_leaves_concat_iff (hx : g.expr e = .concat high low) : (offset, part) ∈ g.leaves e ↔
    (g.width low ≤ offset ∧ (offset - g.width low, part) ∈ g.leaves high) ∨
    (offset, part) ∈ g.leaves low := by
  rw [wf.leaves_of_concat hx, List.mem_append]
  refine or_congr_left ⟨fun h => ?_, fun ⟨hle, hmem⟩ => ?_⟩
  · obtain ⟨⟨o, leaf⟩, hmem, heq⟩ := List.mem_map.1 h
    cases heq
    exact ⟨Nat.le_add_right _ _, by rwa [Nat.add_sub_cancel_left]⟩
  · exact List.mem_map.2 ⟨_, hmem, Prod.ext (Nat.add_sub_cancel' hle) rfl⟩

end WellFormed

theorem leaves_of_not_isConcat (hc : ¬ (g.expr e).isConcat) : g.leaves e = [(0, e)] := by
  rw [leaves, leavesWithin]
  cases hx : g.expr e with
  | concat high low => exact absurd (by rw [hx]; rfl) hc
  | _ => rfl

namespace WellFormed

variable (wf : g.WellFormed)
include wf

theorem mem_leaves_iff : (offset, part) ∈ g.leaves e ↔ g.PartAt e offset part ∧
    ¬ (g.expr part).isConcat := by
  induction e using Nat.strong_induction_on generalizing offset with
  | _ e ih =>
    by_cases hc : (g.expr e).isConcat
    · obtain ⟨high, low, hx⟩ := Expr.exists_concat_of_isConcat hc
      rw [wf.mem_leaves_concat_iff hx, ih high (wf.child_lt (by simp [hx, Expr.children])),
        ih low (wf.child_lt (by simp [hx, Expr.children])), partAt_concat_iff hx]
      constructor
      · rintro (⟨hle, hpart, hleaf⟩ | ⟨hpart, hleaf⟩)
        · exact ⟨.inr (.inl ⟨hle, hpart⟩), hleaf⟩
        · exact ⟨.inr (.inr hpart), hleaf⟩
      · rintro ⟨⟨-, rfl⟩ | ⟨hle, hpart⟩ | hpart, hleaf⟩
        · exact absurd hc hleaf
        · exact .inl ⟨hle, hpart, hleaf⟩
        · exact .inr ⟨hpart, hleaf⟩
    · rw [leaves_of_not_isConcat hc, partAt_iff_of_not_isConcat hc, List.mem_singleton,
        Prod.mk.injEq]
      refine ⟨fun h => ⟨h, ?_⟩, And.left⟩
      rwa [h.2]

theorem exists_eval_iff_leaves (he : e < g.size) : (∃ c, (g.tree e).eval bytes = .ok c) ↔
    ∀ offset leaf, (offset, leaf) ∈ g.leaves e → ∃ d, (g.tree leaf).eval bytes = .ok d := by
  induction e using Nat.strong_induction_on with
  | _ e ih =>
    by_cases hc : (g.expr e).isConcat
    · obtain ⟨high, low, hx⟩ := Expr.exists_concat_of_isConcat hc
      obtain ⟨hhigh, hlow, -⟩ := wf.concat_operands he hx
      have both : (∃ c, (g.tree e).eval bytes = .ok c) ↔
          (∃ c, (g.tree high).eval bytes = .ok c) ∧ ∃ c, (g.tree low).eval bytes = .ok c := by
        simp only [wf.tree_of_concat he hx, Tree.eval_concat_eq_ok_iff]
        constructor
        · rintro ⟨c, h, l, hh, hl, -⟩
          exact ⟨⟨h, hh⟩, l, hl⟩
        · rintro ⟨⟨h, hh⟩, l, hl⟩
          exact ⟨_, h, l, hh, hl, rfl⟩
      rw [both, ih high hhigh (Nat.lt_trans hhigh he), ih low hlow (Nat.lt_trans hlow he)]
      simp only [wf.mem_leaves_concat_iff hx]
      constructor
      · rintro ⟨inHigh, inLow⟩ offset leaf (⟨-, hmem⟩ | hmem)
        · exact inHigh _ leaf hmem
        · exact inLow offset leaf hmem
      · intro all
        refine ⟨fun o leaf hmem => all (g.width low + o) leaf (.inl ⟨Nat.le_add_right _ _, ?_⟩),
          fun o leaf hmem => all o leaf (.inr hmem)⟩
        rwa [Nat.add_sub_cancel_left]
    · rw [leaves_of_not_isConcat hc]
      simp

end WellFormed

end Graph

end BitvectorCode
