import BitvectorCode.Proofs.Lowering.Diff
import BitvectorCode.Proofs.Rewrite.SliceTrees
import BitvectorCode.Proofs.Solver.Evaluation

/-!
# States that do not differ

Between two states of equal structure nothing is assigned, and the search for differences does not
fail: every part of the type lies inside the expressions, the slices of both states have equal
trees, and the oracle is only asked about expressions that it can see to be the same. The slices may
be parts, extracts of parts or extracts of the whole, and are different nodes; it does not matter
which.
-/

namespace BitvectorCode

namespace Ty

/-- A struct or an array whose fields or elements all have bits. -/
def HasSizedParts : Ty → Prop
  | struct _ fields _ => ∀ field ∈ fields, 0 < field.type.bits
  | array element _ => 0 < element.bits
  | primitive .. | pointer _ => False

end Ty

/-- Whatever its state is, the oracle calls expressions of one width and one structure always
equal. -/
def Oracle.KnowsStructure {σ : Type} (oracle : Oracle σ) : Prop :=
  ∀ (g : Graph) (constraints : ConstraintSet) (l r : NodeId) (s : σ), g.WellFormed →
    l < g.size → r < g.size →
    g.width l = g.width r → g.sameStructure l r = true →
    ∃ s', oracle.alwaysEqual g constraints l r s = .ok true s'

theorem Oracle.evaluation_knowsStructure {σ : Type} : (evaluation : Oracle σ).KnowsStructure := by
  intro g constraints l r s wf hl hr _ same
  have answer := wf.provablyEqual_of_tree_eq hl hr ((wf.sameStructure_iff hl hr).1 same)
  refine ⟨s, ?_⟩
  change (ofExcept (g.provablyEqual l r) : EStateM Error σ Bool) s = _
  rw [answer]
  rfl

namespace Diff

variable {σ : Type} {env : Environment} {oracle : Oracle σ} {constraints : ConstraintSet}
variable {g₀ : Graph} {b a : NodeId} {place : Location}

theorem ask_of_same {g : Graph} (knows : oracle.KnowsStructure) (wf : g.WellFormed)
    (hb : b < g.size) (ha : a < g.size) (same : g.tree b = g.tree a) :
    Ensures (fun s : Inquiry σ => s.graph = g)
      (Inquiry.ask fun g => oracle.alwaysEqual g constraints b a)
      (fun equal s => s.graph = g ∧ equal = true) fun _ _ => False := by
  rintro ⟨g, state⟩ rfl
  obtain ⟨state', answer⟩ :=
    knows g constraints b a state wf hb ha (wf.width_eq_of_tree_eq hb ha same)
    ((wf.sameStructure_iff hb ha).2 same)
  simp only [Inquiry.ask, answer]
  exact ⟨trivial, trivial⟩

theorem slices_of_same {offset width : Nat} (knows : oracle.KnowsStructure) (wf : g₀.WellFormed)
    (hb : b < g₀.size) (ha : a < g₀.size) (same : g₀.tree b = g₀.tree a) (hw : 0 < width)
    (hin : offset + width ≤ g₀.width b) :
    Ensures (fun s : Inquiry σ => g₀.Grows s.graph) (slices oracle constraints b a offset width)
      (fun (_, _, equal) s => g₀.Grows s.graph ∧ equal = true) fun _ _ => False := by
  apply Ensures.bind (Inquiry.build_ensures (Build.slice_tree_grown wf hb hw hin))
  intro l s hleft
  obtain ⟨grown, hl, hltree⟩ := hleft
  have wf' := grown.wellFormed
  have hin' : offset + width ≤ s.graph.width a := by
    rwa [grown.width_eq ha, ← wf.width_eq_of_tree_eq hb ha same]
  apply (Inquiry.build_ensures (Build.slice_tree_grown wf' (grown.lt_size ha) hw hin')).bind
    _ s wf'.grows
  intro r t hright
  obtain ⟨more, hr, hrtree⟩ := hright
  have equal : t.graph.tree l = t.graph.tree r := by
    rw [more.tree_eq wf' hl, hltree, hrtree, grown.tree_eq wf ha, same]
  apply (ask_of_same knows more.wellFormed (more.lt_size hl) hr equal).bind _ t rfl
  rintro _ u ⟨hu, rfl⟩
  exact ⟨hu ▸ grown.trans more, rfl⟩

theorem elements_of_same {bits : Nat} (start count : Nat) (found : Array Assignment)
    (knows : oracle.KnowsStructure) (wf : g₀.WellFormed) (hb : b < g₀.size) (ha : a < g₀.size)
    (same : g₀.tree b = g₀.tree a) (hw : 0 < bits) (hin : (start + count) * bits ≤ g₀.width b) :
    Ensures (fun s : Inquiry σ => g₀.Grows s.graph)
      (foldElementsFrom (element env oracle constraints b a place bits) start count found)
      (fun found' s => g₀.Grows s.graph ∧ found' = found) fun _ _ => False := by
  induction count generalizing start with
  | zero => exact .pure fun s grown => ⟨grown, rfl⟩
  | succ count ih =>
    have here : start * bits + bits ≤ g₀.width b :=
      calc start * bits + bits = (start + 1) * bits := (Nat.succ_mul _ _).symm
        _ ≤ (start + (count + 1)) * bits := Nat.mul_le_mul_right _ (by omega)
        _ ≤ g₀.width b := hin
    have first : Ensures (fun s : Inquiry σ => g₀.Grows s.graph)
        (element env oracle constraints b a place bits start found)
        (fun found' s => g₀.Grows s.graph ∧ found' = found) fun _ _ => False := by
      apply (slices_of_same knows wf hb ha same hw here).bind
      rintro ⟨l, r, equal⟩ s ⟨grown, rfl⟩
      exact ⟨grown, rfl⟩
    apply first.bind
    rintro _ s ⟨grown, rfl⟩
    exact ih (start + 1) (by rwa [Nat.add_right_comm]) s grown

theorem fields_of_same {fields : List (Field Ty)} (knows : oracle.KnowsStructure)
    (wf : g₀.WellFormed) (hb : b < g₀.size) (ha : a < g₀.size) (same : g₀.tree b = g₀.tree a)
    (sized : ∀ field ∈ fields, 0 < field.type.bits)
    (hin : ∀ field ∈ fields, field.offset * 8 + field.type.bits ≤ g₀.width b) :
    Ensures (fun s : Inquiry σ => g₀.Grows s.graph)
      (betweenFields env oracle constraints b a place fields)
      (fun found s => g₀.Grows s.graph ∧ found = []) fun _ _ => False := by
  induction fields with
  | nil =>
    unfold betweenFields
    exact .pure fun s grown => ⟨grown, rfl⟩
  | cons first rest ih =>
    rw [List.forall_mem_cons] at sized hin
    rw [betweenFields_cons]
    apply (slices_of_same knows wf hb ha same sized.1 hin.1).bind
    rintro ⟨l, r, equal⟩ s ⟨grown, rfl⟩
    apply (ih sized.2 hin.2).bind _ s grown
    rintro _ t ⟨grown', rfl⟩
    exact ⟨grown', rfl⟩

/-- Nothing is assigned in the parts of a type that is as wide as the expressions. -/
theorem between_of_same (env : Environment) (constraints : ConstraintSet)
    (place : Location) {type : Ty} (knows : oracle.KnowsStructure) (wf : g₀.WellFormed)
    (hb : b < g₀.size) (ha : a < g₀.size) (same : g₀.tree b = g₀.tree a)
    (laid : type.Laid) (sized : type.HasSizedParts) (hbits : type.bits = g₀.width b) :
    Ensures (fun s : Inquiry σ => g₀.Grows s.graph) (between env oracle constraints b a place type)
      (fun found s => g₀.Grows s.graph ∧ found = []) fun _ _ => False := by
  cases type with
  | struct name fields size =>
    unfold between
    exact fields_of_same knows wf hb ha same sized fun field hfield =>
      hbits ▸ laid.field_le field hfield
  | array element count =>
    have hin : (0 + count) * element.bits ≤ g₀.width b := by
      rw [Nat.zero_add, Nat.mul_comm, ← hbits]
      exact Nat.le_refl _
    unfold between
    apply (elements_of_same 0 count #[] knows wf hb ha same sized hin).bind
    rintro _ s ⟨grown, rfl⟩
    exact ⟨grown, rfl⟩
  | primitive bits signed => exact sized.elim
  | pointer pointee => exact sized.elim

end Diff

namespace Environment

variable {σ : Type} {env : Environment} {oracle : Oracle σ} {constraints : ConstraintSet}
variable {before after : NodeId} {s : Inquiry σ} {base code : Code}

/-- The difference between two states of one structure is empty, under every oracle that knows equal
structure, such as the one that evaluates. Both states must have code, and the type of the first
one, or what it points to, must be a struct or an array that is laid out, as wide as the state and
without empty parts. -/
theorem diff_of_same_structure (knows : oracle.KnowsStructure) (wf : s.graph.WellFormed)
    (hb : before < s.graph.size) (ha : after < s.graph.size)
    (same : s.graph.sameStructure before after = true) (hbase : env.lower s.graph before = .ok base)
    (hcode : env.lower s.graph after = .ok code) (laid : base.type.target.Laid)
    (sized : base.type.target.HasSizedParts)
    (hbits : base.type.target.bits = s.graph.width before) :
    (Oracle.evaluation : Oracle σ).KnowsStructure ∧
      ∃ t, env.diff oracle constraints before after s = .ok [] t ∧ s.graph.Grows t.graph := by
  refine ⟨Oracle.evaluation_knowsStructure, ?_⟩
  have htree := (wf.sameStructure_iff hb ha).1 same
  have hw := wf.width_eq_of_tree_eq hb ha htree
  have walk := Diff.between_of_same env constraints { base } knows wf hb ha htree laid sized hbits
  have run : env.diff oracle constraints before after s =
      Diff.between env oracle constraints before after { base } base.type.target s := by
    unfold diff
    rw [get_bind_apply]
    simp only [hw, ne_eq, not_true, if_false, hbase, hcode]
    rfl
  obtain ⟨found, t, hfound, grown, rfl⟩ | ⟨_, _, _, never⟩ := walk.outcome wf.grows
  · exact ⟨t, run.trans hfound, grown⟩
  · exact never.elim

/-- Four bytes of a variable, put together twice. The pairs of bytes hold the first and the last
field, and the field in the middle lies on both sides of their boundary. -/
theorem diff_of_same_reads :
    let fields : List (Field Ty) :=
      [⟨"kind", 0, .byte⟩, ⟨"length", 1, .unsigned 16⟩, ⟨"tags", 3, .array .byte 1⟩]
    let type : Ty := .struct "header" fields 4
    let env : Environment := { symbols := ({} : SymbolTable).declare "S" ⟨"s", type⟩ }
    let g : Graph :=
      { nodes := #[⟨.constant ⟨0, 32⟩, 32⟩, ⟨.constant ⟨1, 32⟩, 32⟩, ⟨.constant ⟨2, 32⟩, 32⟩,
          ⟨.constant ⟨3, 32⟩, 32⟩, ⟨.read 0 0, 8⟩, ⟨.read 0 1, 8⟩, ⟨.read 0 2, 8⟩, ⟨.read 0 3, 8⟩,
          ⟨.concat 5 4, 16⟩, ⟨.concat 7 6, 16⟩, ⟨.concat 9 8, 32⟩, ⟨.concat 5 4, 16⟩,
          ⟨.concat 7 6, 16⟩, ⟨.concat 12 11, 32⟩]
        roots := #[.symbolic "S" 4] }
    (Oracle.evaluation : Oracle Unit).KnowsStructure ∧ g.WellFormed ∧ 10 < g.size ∧ 13 < g.size ∧
      g.sameStructure 10 13 = true ∧ env.lower g 10 = .ok (.var ⟨"s", type⟩) ∧
      env.lower g 13 = .ok (.var ⟨"s", type⟩) ∧ type.Laid ∧ type.HasSizedParts ∧
      type.bits = g.width 10 ∧
      ∃ t, env.diff (Oracle.evaluation : Oracle Unit) {} 10 13 ⟨g, ()⟩ = .ok [] t ∧
        g.Grows t.graph := by
  intro fields type env g
  have knows : (Oracle.evaluation : Oracle Unit).KnowsStructure := Oracle.evaluation_knowsStructure
  have wf : g.WellFormed := by decide +kernel
  have same : g.sameStructure 10 13 = true := by decide +kernel
  have before : env.lower g 10 = .ok (.var ⟨"s", type⟩) := by decide +kernel
  have after : env.lower g 13 = .ok (.var ⟨"s", type⟩) := by decide +kernel
  have laid : type.Laid :=
    ⟨⟨fields, ⟨"header", fields, 4⟩, rfl, rfl⟩, trivial, trivial, trivial, trivial⟩
  have sized : type.HasSizedParts := by
    simp [type, fields, Ty.HasSizedParts, Ty.bits, Ty.byte, Ty.unsigned]
  refine ⟨knows, wf, by decide, by decide, same, before, after, laid, sized, rfl, ?_⟩
  exact (diff_of_same_structure (s := ⟨g, ()⟩) knows wf (by decide)
    (by decide) same before after laid sized rfl).2

end Environment

end BitvectorCode
