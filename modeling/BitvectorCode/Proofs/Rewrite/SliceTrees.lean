import BitvectorCode.Proofs.Rewrite.Narrowing

/-!
# Slices of trees

What a slice looks like depends on the tree of its expression alone. The search in a tree of concats
and the choice between a part, an extract of a part and an extract of the whole can be made on
trees, so slices of expressions with equal trees have equal trees, wherever their nodes are.
-/

namespace BitvectorCode

open BitvectorCode.Graph

namespace Tree

def isConcat : Tree → Bool
  | concat _ _ => true
  | _ => false

/-- The part that holds the bits from `offset` on, and their offset in it; there is none when they
lie on both sides of a boundary. -/
def part? : Tree → (offset width : Nat) → Option (Tree × Nat)
  | concat high low, offset, width =>
    if offset = 0 ∧ width = high.width + low.width then some (concat high low, offset)
    else if offset + width ≤ low.width then low.part? offset width
    else if low.width ≤ offset ∧ offset - low.width + width ≤ high.width then
      high.part? (offset - low.width) width
    else none
  | t, offset, _ => some (t, offset)

/-- What an extract of the tree is narrowed to; nothing where the bits belong to no part of a
concat. -/
def narrow? (t : Tree) (offset width : Nat) : Option Tree :=
  if t.isConcat then
    (t.part? offset width).map fun (part, o) =>
      if o = 0 ∧ width = part.width then part else extract part o width
  else some (extract t offset width)

/-- The bits from `offset` on: the tree itself if they are all of it, what an extract of it is
narrowed to, or the extract. -/
def slice (t : Tree) (offset width : Nat) : Tree :=
  if offset = 0 ∧ width = t.width then t
  else (t.narrow? offset width).getD (extract t offset width)

theorem part?_of_not_isConcat {t : Tree} (h : t.isConcat = false) (offset width : Nat) :
    t.part? offset width = some (t, offset) := by
  cases t with
  | concat high low => cases h
  | _ => rfl

end Tree

namespace Graph

variable {g : Graph} {e : NodeId} {offset width : Nat}

theorem WellFormed.isConcat_tree (wf : g.WellFormed) (he : e < g.size) :
    (g.tree e).isConcat = (g.expr e).isConcat := by
  rw [wf.tree_eq he]
  cases g.expr e <;> rfl

/-- The search in a graph ends at the part that the search in the tree ends at. The induction is on
the steps, which bound the position of the node. -/
theorem partWithin_tree (wf : g.WellFormed) {steps : Nat} (hs : e < steps) (he : e < g.size) :
    (g.tree e).part? offset width =
      (g.partWithin steps e offset width).toOption.map fun (part, o) => (g.tree part, o) := by
  induction steps generalizing e offset with
  | zero => exact absurd hs (Nat.not_lt_zero e)
  | succ steps ih =>
    unfold partWithin
    cases hx : g.expr e with
    | concat high low =>
      obtain ⟨hhigh, hlow, hwidth⟩ := wf.concat_operands he hx
      have whigh := wf.width_tree (Nat.lt_trans hhigh he)
      have wlow := wf.width_tree (Nat.lt_trans hlow he)
      have htree := wf.tree_of_concat he hx
      rw [htree, Tree.part?, whigh, wlow, ← hwidth]
      dsimp only
      split
      · rw [← htree]
        rfl
      split
      · exact ih (by lia) (by lia)
      split
      · exact ih (by lia) (by lia)
      · rfl
    | _ =>
      have leaf : (g.tree e).isConcat = false := by
        rw [wf.isConcat_tree he, hx]
        rfl
      rw [Tree.part?_of_not_isConcat leaf]
      rfl

theorem part_tree (wf : g.WellFormed) (he : e < g.size) :
    (g.tree e).part? offset width =
      (g.part e offset width).toOption.map fun (part, o) => (g.tree part, o) :=
  partWithin_tree wf (lt_part_steps he offset) he

theorem WellFormed.tree_push_extract (wf : g.WellFormed) (he : e < g.size)
    (hin : offset + width ≤ g.width e) (hw : 0 < width) :
    (g.push ⟨.extract e offset width, width⟩).tree g.size = .extract (g.tree e) offset width :=
  tree_push wf (wf.extract he hin hw).2 (by simpa [Expr.children] using he) (by simp [Expr.roots])

end Graph

namespace Build

variable {g : Graph} {e top : NodeId} {offset width : Nat}

theorem narrowExtract_tree (wf : g.WellFormed) (he : e < g.size)
    (hx : g.expr e = .extract top offset width) :
    Ensures (· = g) (narrowExtract e)
      (fun r h => g.Grows h ∧ r < h.size ∧ (g.tree top).narrow? offset width = some (h.tree r))
      fun err h => h = g ∧ (g.tree top).narrow? offset width = none ∧
        ∃ o w, err = .straddlesConcat o w := by
  obtain ⟨ht, hin, hw, -⟩ := wf.extract_operand he hx
  have ht := Nat.lt_trans ht he
  have hconcat := wf.isConcat_tree ht
  rintro g rfl
  unfold Tree.narrow?
  by_cases hc : (g.expr top).isConcat
  · rw [narrowExtract_eq_part hx hc, hconcat, if_pos hc, part_tree wf ht]
    obtain ⟨part, o, hpart, hlt, hinside, -⟩ | ⟨o, herr⟩ := part_spec wf ht hw hin
    · simp only [hpart, Except.toOption, Option.map_some, wf.width_tree hlt]
      by_cases hall : o = 0 ∧ width = g.width part
      · rw [if_pos hall, if_pos hall]
        exact ⟨wf.grows, hlt, rfl⟩
      · obtain ⟨hrun, step⟩ := wf.extract hlt hinside hw
        rw [if_neg hall, if_neg hall, hrun, ← wf.tree_push_extract hlt hinside hw]
        exact ⟨step, lt_size_push _, rfl⟩
    · rw [herr]
      exact ⟨rfl, rfl, o, width, rfl⟩
  · have kept : ¬ g.extractsConcat e := by
      simp [extractsConcat, hx, hc]
    rw [narrowExtract_of_not_extractsConcat kept, hconcat, if_neg hc, ← wf.tree_of_extract he hx]
    exact ⟨wf.grows, he, rfl⟩

theorem slice_tree (wf : g.WellFormed) (he : e < g.size) (hw : 0 < width)
    (hin : offset + width ≤ g.width e) :
    Ensures (· = g) (slice e offset width)
      (fun r h => g.Grows h ∧ r < h.size ∧ h.tree r = (g.tree e).slice offset width)
      fun _ _ => False := by
  apply Ensures.bind_get_self
  unfold Tree.slice
  rw [wf.width_tree he]
  split
  · rintro _ rfl
    exact ⟨wf.grows, he, rfl⟩
  obtain ⟨hrun, step⟩ := wf.extract he hin hw
  have htree := wf.tree_push_extract he hin hw
  have hexpr := congrArg Node.expr (node_push (g := g) ⟨.extract e offset width, width⟩)
  have added : Ensures (· = g) (extract e offset width)
      (fun x k => x = g.size ∧ k = g.push ⟨.extract e offset width, width⟩) fun _ _ => False := by
    rintro g rfl
    rw [hrun]
    exact ⟨rfl, rfl⟩
  apply added.bind
  rintro _ _ ⟨rfl, rfl⟩
  -- a refusal is no failure of the slice: the extract is kept
  have narrowed := narrowExtract_tree step.wellFormed (lt_size_push _) hexpr
  rw [step.tree_eq wf he] at narrowed
  obtain ⟨r, h, hok, more, hr, hsome⟩ | ⟨err, h, herr, rfl, hnone, o, w, rfl⟩ :=
    narrowed.outcome rfl
  · simp only [hok]
    rw [hsome]
    exact ⟨step.trans more, hr, rfl⟩
  · simp only [herr]
    rw [hnone]
    exact ⟨step, lt_size_push _, htree⟩

theorem slice_tree_grown {g₀ : Graph} (wf : g₀.WellFormed) (he : e < g₀.size) (hw : 0 < width)
    (hin : offset + width ≤ g₀.width e) :
    Ensures g₀.Grows (slice e offset width)
      (fun r h => g₀.Grows h ∧ r < h.size ∧ h.tree r = (g₀.tree e).slice offset width)
      fun _ _ => False := by
  intro g grown
  have now := slice_tree grown.wellFormed (grown.lt_size he) hw (by rwa [grown.width_eq he])
  rw [grown.tree_eq wf he] at now
  exact now.start rfl (fun _ _ h => ⟨grown.trans h.1, h.2⟩) (fun _ _ h => h) g rfl

end Build

end BitvectorCode
