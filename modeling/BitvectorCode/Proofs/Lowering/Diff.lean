import BitvectorCode.Proofs.Layout.Leaves
import BitvectorCode.Proofs.Rewrite.NarrowExtract
import Mathlib.Data.List.Forall2
import Mathlib.Data.List.ReduceOption

/-!
# Differences

The walk over a type says something about each of its leaves: either two slices that hold the leaf
were confirmed to be the same, or the leaf is assigned the code of an expression that has its new
bits. What was said about the leaves of a part carries over to the whole.
-/

namespace BitvectorCode

namespace Inquiry

variable {σ α : Type} {g : Graph}

theorem build_ensures {x : Build α} {pre : Graph → Prop} {post : α → Graph → Prop}
    {fail : Error → Graph → Prop} (h : Ensures pre x post fail) :
    Ensures (fun s : Inquiry σ => pre s.graph) (build x) (fun a s => post a s.graph)
      fun err s => fail err s.graph := by
  rintro ⟨g, oracle⟩ hg
  obtain ⟨a, t, hx, ht⟩ | ⟨err, t, hx, ht⟩ := h.outcome hg
  · simp only [build, hx]
    exact ht
  · simp only [build, hx]
    exact ht

theorem ask_ensures (question : Graph → EStateM Error σ α) :
    Ensures (fun s : Inquiry σ => s.graph = g) (ask question)
      (fun a s => s.graph = g ∧ ∃ before after, question g before = .ok a after)
      fun err s => s.graph = g ∧ ∃ before after, question g before = .error err after := by
  rintro ⟨g, oracle⟩ rfl
  unfold ask
  cases h : question g oracle with
  | ok a oracle' =>
    simp only [h]
    exact ⟨trivial, oracle, oracle', h⟩
  | error err oracle' =>
    simp only [h]
    exact ⟨trivial, oracle, oracle', h⟩

theorem ask_grows {g₀ : Graph} {question : Graph → EStateM Error σ α} :
    Ensures (fun s : Inquiry σ => g₀.Grows s.graph) (ask question)
      (fun a s => g₀.Grows s.graph ∧ ∃ before after, question s.graph before = .ok a after)
      fun _ s => g₀.Grows s.graph := by
  intro s grown
  apply (ask_ensures question).start rfl _ _ s rfl
  · intro a t h
    rw [h.1]
    exact ⟨grown, h.2⟩
  · intro _ t h
    rw [h.1]
    exact grown

end Inquiry

/-- What holds of two expressions that the oracle calls always equal, in any graph that `g₀` can
grow to. -/
def Oracle.Confirms {σ : Type} (oracle : Oracle σ) (constraints : ConstraintSet) (g₀ : Graph)
    (Same : Tree → Tree → Prop) : Prop :=
  ∀ (g : Graph) (l r : NodeId) (s s' : σ), g₀.Grows g → l < g.size → r < g.size →
    oracle.alwaysEqual g constraints l r s = .ok true s' → Same (g.tree l) (g.tree r)

theorem Oracle.Confirms.grow {σ : Type} {oracle : Oracle σ} {constraints : ConstraintSet}
    {g h : Graph} {Same : Tree → Tree → Prop} (hs : oracle.Confirms constraints g Same)
    (gh : g.Grows h) :
    oracle.Confirms constraints h Same :=
  fun k l r s s' hk => hs k l r s s' (gh.trans hk)

namespace Diff

/-- What a comparison says about one leaf of a part. Without an assignment, two slices that hold the
leaf are the same. An assignment is to the leaf, and its value is the code of an expression with the
new bits, in a graph on the way to `g`. -/
def Outcome (env : Environment) (Same : Tree → Tree → Prop) (before after : Tree) (place : Location)
    (g₀ g : Graph) (leaf : Leaf) : Option Assignment → Prop
  | none => ∃ l r offset width, Same l r ∧ l.IsSlice before offset width ∧
      r.IsSlice after offset width ∧ offset ≤ leaf.offset ∧
      leaf.offset + leaf.width ≤ offset + width ∧ offset + width ≤ before.width
  | some a => a.place = ⟨place.base, place.path ++ leaf.path⟩ ∧
      ∃ h e, g₀.Grows h ∧ h.Grows g ∧ e < h.size ∧ env.lower h e = .ok a.value ∧
        (h.tree e).IsSlice after leaf.offset leaf.width

/-- What a comparison says about all leaves: the assignments found are those of the outcomes, in the
order of the leaves. -/
def Outcomes (env : Environment) (Same : Tree → Tree → Prop) (before after : Tree)
    (place : Location) (g₀ g : Graph) (leaves : List Leaf) (found : List Assignment) : Prop :=
  ∃ outcomes, found = outcomes.reduceOption ∧
    List.Forall₂ (Outcome env Same before after place g₀ g) leaves outcomes

variable {env : Environment} {Same : Tree → Tree → Prop} {before after : Tree} {place : Location}
variable {g₀ g h : Graph} {leaves more : List Leaf} {found others : List Assignment}

theorem Outcomes.nil : Outcomes env Same before after place g₀ g [] [] := ⟨[], rfl, .nil⟩

theorem Outcomes.append (hl : Outcomes env Same before after place g₀ g leaves found)
    (hm : Outcomes env Same before after place g₀ g more others) :
    Outcomes env Same before after place g₀ g (leaves ++ more) (found ++ others) := by
  obtain ⟨os, rfl, hos⟩ := hl
  obtain ⟨ps, rfl, hps⟩ := hm
  exact ⟨os ++ ps, (List.reduceOption_append os ps).symm, List.rel_append hos hps⟩

theorem Outcomes.grow {g₁ : Graph} (hl : Outcomes env Same before after place g₁ g leaves found)
    (g₀g₁ : g₀.Grows g₁) (gh : g.Grows h) :
    Outcomes env Same before after place g₀ h leaves found := by
  obtain ⟨os, rfl, hos⟩ := hl
  refine ⟨os, rfl, hos.imp fun leaf o ho => ?_⟩
  cases o with
  | none => exact ho
  | some a =>
    obtain ⟨hplace, k, e, hk, hkg, rest⟩ := ho
    exact ⟨hplace, k, e, g₀g₁.trans hk, hkg.trans gh, rest⟩

theorem outcomes_of_same {l r : Tree} {offset width : Nat} (hs : Same l r)
    (hl : l.IsSlice before offset width) (hr : r.IsSlice after offset width)
    (hin : offset + width ≤ before.width)
    (hleaves : ∀ leaf ∈ leaves, offset ≤ leaf.offset ∧ leaf.offset + leaf.width ≤ offset + width) :
    Outcomes env Same before after place g₀ g leaves [] := by
  induction leaves with
  | nil => exact .nil
  | cons leaf rest ih =>
    obtain ⟨os, hos, hall⟩ := ih fun x hx => hleaves x (by simp [hx])
    obtain ⟨hfrom, hto⟩ := hleaves leaf (by simp)
    exact ⟨none :: os, hos, .cons ⟨l, r, offset, width, hs, hl, hr, hfrom, hto, hin⟩ hall⟩

theorem outcomes_of_assignment {leaf : Leaf} {a : Assignment} {e : NodeId} (grown : g₀.Grows g)
    (he : e < g.size) (hslice : (g.tree e).IsSlice after leaf.offset leaf.width)
    (hplace : a.place = ⟨place.base, place.path ++ leaf.path⟩)
    (hcode : env.lower g e = .ok a.value) :
    Outcomes env Same before after place g₀ g [leaf] [a] :=
  ⟨[some a], rfl, .cons ⟨hplace, g, e, grown, grown.wellFormed.grows, he, hcode, hslice⟩ .nil⟩

theorem Outcomes.within {part part' : Tree} {step : PathStep} {offset width : Nat}
    (ho : Outcomes env Same part part' (place.step step) h g leaves found) (gh : g₀.Grows h)
    (hb : part.IsSlice before offset width) (ha : part'.IsSlice after offset width)
    (hw : part.width = width) (hin : offset + width ≤ before.width)
    (hleaves : ∀ leaf ∈ leaves, leaf.offset + leaf.width ≤ width) :
    Outcomes env Same before after place g₀ g (leaves.map (Leaf.within step offset)) found := by
  obtain ⟨os, rfl, hos⟩ := ho
  refine ⟨os, rfl, ?_⟩
  rw [List.forall₂_map_left_iff]
  apply ((List.forall₂_and_left _ os).2 ⟨hleaves, hos⟩).imp
  intro leaf o hpair
  obtain ⟨hle, ho⟩ := hpair
  cases o with
  | none =>
    obtain ⟨l, r, o, w, hs, hl, hr, hfrom, hto, hinner⟩ := ho
    rw [hw] at hinner
    refine ⟨l, r, offset + o, w, hs, hl.trans hb hinner, hr.trans ha hinner, ?_⟩
    simp only [Leaf.within]
    omega
  | some a =>
    obtain ⟨hplace, k, e, hk, hkg, he, hcode, hslice⟩ := ho
    refine ⟨?_, k, e, gh.trans hk, hkg, he, hcode, hslice.trans ha hle⟩
    rw [hplace]
    simp [Location.step, Leaf.within]

section Walk

variable {σ : Type} {oracle : Oracle σ} {constraints : ConstraintSet} {b a : NodeId}

theorem slices_ensures {offset width : Nat} (wf : g₀.WellFormed) (hb : b < g₀.size)
    (ha : a < g₀.size) (confirms : oracle.Confirms constraints g₀ Same) :
    Ensures (fun s : Inquiry σ => g₀.Grows s.graph) (slices oracle constraints b a offset width)
      (fun (l, r, equal) s => g₀.Grows s.graph ∧ l < s.graph.size ∧ r < s.graph.size ∧
        s.graph.width l = width ∧ offset + width ≤ g₀.width b ∧
        (s.graph.tree l).IsSlice (g₀.tree b) offset width ∧
        (s.graph.tree r).IsSlice (g₀.tree a) offset width ∧
        (equal = true → Same (s.graph.tree l) (s.graph.tree r)))
      fun _ s => g₀.Grows s.graph := by
  apply Ensures.bind (Inquiry.build_ensures (Build.slice_adds offset width wf hb))
  intro l s hleft
  obtain ⟨grown, hl, hw, hin, hlb⟩ := hleft
  have wf' := grown.wellFormed
  have second := Inquiry.build_ensures (σ := σ)
    (Build.slice_adds offset width wf' (grown.lt_size ha))
  rw [grown.tree_eq wf ha] at second
  apply (second.weaken_fail fun _ _ h => grown.trans h).bind _ s wf'.grows
  intro r t hright
  obtain ⟨more, hr, -, -, hra⟩ := hright
  have asked := Inquiry.ask_ensures (g := t.graph) fun g => oracle.alwaysEqual g constraints l r
  have quiet : ∀ u : Inquiry σ, u.graph = t.graph → g₀.Grows u.graph := by
    intro u hu
    rw [hu]
    exact grown.trans more
  apply (asked.weaken_fail fun _ u h => quiet u h.1).bind _ t rfl
  intro equal u hasked
  obtain ⟨hu, s₁, s₂, answer⟩ := hasked
  obtain ⟨g, state⟩ := u
  subst hu
  have hl' : l < t.graph.size := more.lt_size hl
  refine ⟨grown.trans more, hl', hr, (more.width_eq hl).trans hw, hin, ?_, hra, ?_⟩
  · rw [more.tree_eq wf' hl]
    exact hlb
  · rintro rfl
    exact confirms t.graph l r s₁ s₂ (grown.trans more) hl' hr answer

theorem assign_ensures (env : Environment) (place : Location) (a : NodeId) :
    Ensures (fun s : Inquiry σ => s.graph = g) (assign env place a)
      (fun x s => s.graph = g ∧ x.place = place ∧ env.lower g a = .ok x.value)
      fun _ s => s.graph = g := by
  apply Ensures.bind_get
  intro s hs
  subst hs
  apply Ensures.bind (m := fun code t => t = s ∧ env.lower s.graph a = .ok code)
  · exact .ofExcept (fun code h t ht => ⟨ht, h⟩) fun _ _ t ht => congrArg Inquiry.graph ht
  intro code t ht
  exact ⟨congrArg Inquiry.graph ht.1, rfl, ht.2⟩

theorem element_ensures {bits i : Nat} {found : Array Assignment} (wf : g₀.WellFormed)
    (hb : b < g₀.size) (ha : a < g₀.size) (confirms : oracle.Confirms constraints g₀ Same) :
    Ensures (fun s : Inquiry σ => g₀.Grows s.graph)
      (element env oracle constraints b a place bits i found)
      (fun found' s => g₀.Grows s.graph ∧ ∃ new, found'.toList = found.toList ++ new ∧
        Outcomes env Same (g₀.tree b) (g₀.tree a) place g₀ s.graph [Leaf.element bits i] new)
      fun _ s => g₀.Grows s.graph := by
  apply Ensures.bind (slices_ensures wf hb ha confirms)
  intro slices s hslices
  obtain ⟨l, r, equal⟩ := slices
  obtain ⟨grown, hl, hr, hw, hin, hlb, hra, same⟩ := hslices
  cases equal with
  | true =>
    refine ⟨grown, [], (List.append_nil _).symm, ?_⟩
    apply outcomes_of_same (same rfl) hlb hra (by rw [wf.width_tree hb]; exact hin)
    simp [Leaf.element]
  | false =>
    have assigned := assign_ensures (σ := σ) (g := s.graph) env (place.step (.element i)) r
    apply (assigned.weaken_fail fun _ _ h => h ▸ grown).bind _ s rfl
    intro x t hassigned
    obtain ⟨ht, hplace, hcode⟩ := hassigned
    refine ⟨ht ▸ grown, [x], Array.toList_push .., ?_⟩
    rw [ht]
    exact outcomes_of_assignment grown hr hra hplace hcode

theorem elements_ensures {bits : Nat} (start count : Nat) (found : Array Assignment)
    (wf : g₀.WellFormed) (hb : b < g₀.size) (ha : a < g₀.size)
    (confirms : oracle.Confirms constraints g₀ Same) :
    Ensures (fun s : Inquiry σ => g₀.Grows s.graph)
      (foldElementsFrom (element env oracle constraints b a place bits) start count found)
      (fun found' s => g₀.Grows s.graph ∧ ∃ new, found'.toList = found.toList ++ new ∧
        Outcomes env Same (g₀.tree b) (g₀.tree a) place g₀ s.graph
          ((List.range' start count).map (Leaf.element bits)) new)
      fun _ s => g₀.Grows s.graph := by
  induction count generalizing start found g₀ with
  | zero => exact .pure fun s grown => ⟨grown, [], (List.append_nil _).symm, .nil⟩
  | succ count ih =>
    apply Ensures.bind (element_ensures wf hb ha confirms)
    intro found' s hfirst
    obtain ⟨grown, new, hnew, hout⟩ := hfirst
    have wf' := grown.wellFormed
    have rest := ih (start + 1) found' wf' (grown.lt_size hb) (grown.lt_size ha)
      (confirms.grow grown)
    rw [grown.tree_eq wf hb, grown.tree_eq wf ha] at rest
    apply rest.weaken (fun _ h => h) _ (fun _ _ h => grown.trans h) s wf'.grows
    intro found'' t h
    obtain ⟨more, new', hnew', hout'⟩ := h
    refine ⟨grown.trans more, new ++ new', by rw [hnew', hnew, List.append_assoc], ?_⟩
    exact (hout.grow wf.grows more).append (hout'.grow grown more.wellFormed.grows)

/-- In a graph grown from `g₀`, the walk says something about each of the leaves `ls`, provided that
the structs are laid out. -/
def Walks (env : Environment) (Same : Tree → Tree → Prop) (g₀ : Graph) (b a : NodeId)
    (place : Location) (laid : Prop) (ls : List Leaf)
    (x : EStateM Error (Inquiry σ) (List Assignment)) : Prop :=
  Ensures (fun s : Inquiry σ => g₀.Grows s.graph) x
    (fun found s => g₀.Grows s.graph ∧
      (laid → Outcomes env Same (g₀.tree b) (g₀.tree a) place g₀ s.graph ls found))
    fun _ s => g₀.Grows s.graph

/-- The comparison of one field, with its slices and what the oracle says of them at hand. The parts
of a struct or an array are walked through only if they may differ. -/
def field (env : Environment) (oracle : Oracle σ) (constraints : ConstraintSet) (l r : NodeId)
    (equal : Bool) (place : Location) (type : Ty) : EStateM Error (Inquiry σ) (List Assignment) :=
  if equal then pure []
  else match type with
    | .primitive .. | .pointer _ => do pure [← assign env place r]
    | _ => between env oracle constraints l r place type

theorem betweenFields_cons {name : String} {offset : Nat} {type : Ty} {rest : List (Field Ty)} :
    betweenFields env oracle constraints b a place (⟨name, offset, type⟩ :: rest) = (do
      let (l, r, equal) ← slices oracle constraints b a (offset * 8) type.bits
      let first ← field env oracle constraints l r equal (place.step (.field name)) type
      return first ++ (← betweenFields env oracle constraints b a place rest)) := by
  rw [betweenFields]
  congr 1
  funext slices
  obtain ⟨l, r, equal⟩ := slices
  cases equal <;> cases type <;> simp [field]

theorem field_ensures (place : Location) (name : String) {offset : Nat}
    {type : Ty} {l r : NodeId} {equal : Bool} {s : Inquiry σ} (wf : g₀.WellFormed)
    (hb : b < g₀.size) (grown : g₀.Grows s.graph) (hr : r < s.graph.size) (hl : l < s.graph.size)
    (hw : s.graph.width l = type.bits) (hin : offset * 8 + type.bits ≤ g₀.width b)
    (hlb : (s.graph.tree l).IsSlice (g₀.tree b) (offset * 8) type.bits)
    (hra : (s.graph.tree r).IsSlice (g₀.tree a) (offset * 8) type.bits)
    (same : equal = true → Same (s.graph.tree l) (s.graph.tree r))
    (hrec : Walks env Same s.graph l r (place.step (.field name)) type.Laid type.leaves
      (between env oracle constraints l r (place.step (.field name)) type)) :
    Ensures (· = s) (field env oracle constraints l r equal (place.step (.field name)) type)
      (fun found t => s.graph.Grows t.graph ∧ (type.Laid →
        Outcomes env Same (g₀.tree b) (g₀.tree a) place g₀ t.graph
          (type.leaves.map (Leaf.within (.field name) (offset * 8))) found))
      fun _ t => s.graph.Grows t.graph := by
  have wf' := grown.wellFormed
  have hin' : offset * 8 + type.bits ≤ (g₀.tree b).width := by rwa [wf.width_tree hb]
  cases equal with
  | true =>
    rintro _ rfl
    refine ⟨wf'.grows, fun laid => outcomes_of_same (same rfl) hlb hra hin' ?_⟩
    intro leaf hleaf
    obtain ⟨inner, hinner, rfl⟩ := List.mem_map.1 hleaf
    have := Ty.leaf_le laid inner hinner
    simp only [Leaf.within]
    omega
  | false =>
    have single (hleaves : type.leaves = [⟨[], 0, type.bits⟩]) : Ensures (· = s)
        (do pure [← assign env (place.step (.field name)) r])
        (fun found t => s.graph.Grows t.graph ∧ (type.Laid →
          Outcomes env Same (g₀.tree b) (g₀.tree a) place g₀ t.graph
            (type.leaves.map (Leaf.within (.field name) (offset * 8))) found))
        fun _ t => s.graph.Grows t.graph := by
      intro u hu
      have assigned := assign_ensures (σ := σ) (g := s.graph) env (place.step (.field name)) r
      apply (assigned.weaken_fail fun _ _ h => h ▸ wf'.grows).bind _ u (hu ▸ rfl)
      intro x t hassigned
      obtain ⟨ht, hplace, hcode⟩ := hassigned
      refine ⟨ht ▸ wf'.grows, fun _ => ?_⟩
      rw [ht, hleaves]
      exact outcomes_of_assignment grown hr hra hplace hcode
    have inside :
        Ensures (· = s) (between env oracle constraints l r (place.step (.field name)) type)
        (fun found t => s.graph.Grows t.graph ∧ (type.Laid →
          Outcomes env Same (g₀.tree b) (g₀.tree a) place g₀ t.graph
            (type.leaves.map (Leaf.within (.field name) (offset * 8))) found))
        fun _ t => s.graph.Grows t.graph := by
      apply Ensures.start hrec wf'.grows _ fun _ _ h => h
      intro found t hpost
      obtain ⟨more, hout⟩ := hpost
      refine ⟨more, fun laid => (hout laid).within grown hlb hra ?_ hin' (Ty.leaf_le laid)⟩
      rw [wf'.width_tree hl, hw]
    cases type with
    | primitive bits signed => exact single (by simp [Ty.leaves, Ty.bits])
    | pointer pointee => exact single (by simp [Ty.leaves, Ty.bits])
    | struct name fields size => exact inside
    | array element count => exact inside

mutual
/-- The walk over a type. The induction follows the type, with the graph that the walk starts from
as a parameter, because every slice is taken in a larger graph than the one before. -/
theorem between_walks (env : Environment) : ∀ (type : Ty) (place : Location) {g₀ : Graph}
    {b a : NodeId}, g₀.WellFormed → b < g₀.size → a < g₀.size →
    oracle.Confirms constraints g₀ Same → Walks env Same g₀ b a place type.Laid type.leaves
      (between env oracle constraints b a place type)
  | .primitive _ _, _, _, _, _, _, _, _, _ => by
    unfold between
    exact .throw fun _ grown => grown
  | .pointer _, _, _, _, _, _, _, _, _ => by
    unfold between
    exact .throw fun _ grown => grown
  | .struct name fields size, place, _, _, _, wf, hb, ha, confirms => by
    unfold between
    exact Ensures.weaken (betweenFields_walks env fields place wf hb ha confirms) (fun _ h => h)
      (fun _ _ h => ⟨h.1, fun laid => h.2 laid.2⟩) fun _ _ h => h
  | .array element count, _, _, _, _, wf, hb, ha, confirms => by
    unfold between
    apply Ensures.bind (elements_ensures 0 count #[] wf hb ha confirms)
    intro found s hpost
    obtain ⟨grown, new, hnew, hout⟩ := hpost
    refine ⟨grown, fun _ => ?_⟩
    have : found.toList = new := hnew
    rw [this, Ty.leaves, List.range_eq_range']
    exact hout

theorem betweenFields_walks (env : Environment) : ∀ (fields : List (Field Ty)) (place : Location)
    {g₀ : Graph} {b a : NodeId}, g₀.WellFormed → b < g₀.size → a < g₀.size →
    oracle.Confirms constraints g₀ Same →
    Walks env Same g₀ b a place (Ty.FieldsLaid fields) (Ty.leavesOfFields fields)
      (betweenFields env oracle constraints b a place fields)
  | [], _, _, _, _, _, _, _, _ => by
    unfold betweenFields
    exact .pure fun s grown => ⟨grown, fun _ => .nil⟩
  | ⟨name, offset, type⟩ :: rest, place, g₀, b, a, wf, hb, ha, confirms => by
    rw [betweenFields_cons]
    apply Ensures.bind (slices_ensures wf hb ha confirms)
    intro slices s hslices
    obtain ⟨l, r, equal⟩ := slices
    obtain ⟨grown, hl, hr, hw, hin, hlb, hra, same⟩ := hslices
    have first := field_ensures place name wf hb grown hr hl hw hin hlb hra same
      (between_walks env type _ grown.wellFormed hl hr (confirms.grow grown))
    apply (first.weaken_fail fun _ _ h => grown.trans h).bind _ s rfl
    intro found t hfound
    obtain ⟨more, hout⟩ := hfound
    have more' := grown.trans more
    have wf' := more'.wellFormed
    have last := betweenFields_walks env rest place wf' (more'.lt_size hb) (more'.lt_size ha)
      (confirms.grow more')
    unfold Walks at last
    rw [more'.tree_eq wf hb, more'.tree_eq wf ha] at last
    apply (last.weaken_fail fun _ _ h => more'.trans h).bind _ t wf'.grows
    intro others u hothers
    obtain ⟨further, hout'⟩ := hothers
    refine ⟨more'.trans further, fun laid => ?_⟩
    rw [Ty.leavesOfFields]
    exact ((hout laid.1).grow wf.grows further).append
      ((hout' laid.2).grow more' further.wellFormed.grows)
end

theorem diff_ensures (env : Environment) {s : Inquiry σ} (wf : s.graph.WellFormed)
    (hb : b < s.graph.size) (ha : a < s.graph.size)
    (confirms : oracle.Confirms constraints s.graph Same) :
    Ensures (· = s) (env.diff oracle constraints b a)
      (fun found t => s.graph.Grows t.graph ∧ ∃ base, env.lower s.graph b = .ok base ∧
        (base.type.target.Laid → Outcomes env Same (s.graph.tree b) (s.graph.tree a) { base }
          s.graph t.graph base.type.target.leaves found))
      fun _ t => s.graph.Grows t.graph := by
  apply Ensures.bind_get
  intro s' hs
  subst hs
  have here : ∀ t, t = s' → s'.graph.Grows t.graph := by
    rintro _ rfl
    exact wf.grows
  dsimp only
  split
  · exact .throw here
  apply Ensures.bind (m := fun base t => t = s' ∧ env.lower s'.graph b = .ok base)
  · exact .ofExcept (fun base h t ht => ⟨ht, h⟩) fun _ _ => here
  intro base
  apply Ensures.bind (m := fun _ t => t = s' ∧ env.lower s'.graph b = .ok base)
  · exact .ofExcept (fun _ _ _ ht => ht) fun _ _ t ht => here t ht.1
  intro _ t hpost
  obtain ⟨ht, hbase⟩ := hpost
  exact Ensures.start (between_walks env base.type.target _ wf hb ha confirms) wf.grows
    (fun found u h => ⟨h.1, base, hbase, h.2⟩) (fun _ _ h => h) t ht

end Walk

end Diff

def Graph.Models (g : Graph) (bytes : Bytes) (constraints : ConstraintSet) : Prop :=
  ∀ e ∈ constraints.constraints, (g.tree e).eval bytes = .ok ⟨1, 1⟩

/-- Expressions that the oracle calls always equal have the same value in every model of the
constraints in which both have one. -/
def Oracle.Sound {σ : Type} (oracle : Oracle σ) : Prop :=
  ∀ (g : Graph) (constraints : ConstraintSet) (l r : NodeId) (s s' : σ), g.WellFormed →
    (∀ e ∈ constraints.constraints, e < g.size) → l < g.size → r < g.size →
    oracle.alwaysEqual g constraints l r s = .ok true s' →
    ∀ (bytes : Bytes) (c d : Constant), g.Models bytes constraints →
      (g.tree l).eval bytes = .ok c → (g.tree r).eval bytes = .ok d → c = d

namespace Environment

variable {σ : Type} {env : Environment} {oracle : Oracle σ} {constraints : ConstraintSet}
variable {before after : NodeId} {s t : Inquiry σ} {found : List Assignment} {base : Code}

/-- A difference is sound and complete over the layout. The leaves of the type come one after the
other, and each has one outcome. A leaf without an assignment has the same bits in both states in
every model of the constraints. An assignment is to its leaf, and its value is the code of an
expression that has exactly the bits of the leaf in the second state, whatever the symbolic
bytes. -/
theorem diff_spec (wf : s.graph.WellFormed) (hb : before < s.graph.size) (ha : after < s.graph.size)
    (hc : ∀ e ∈ constraints.constraints, e < s.graph.size) (sound : oracle.Sound)
    (hbase : env.lower s.graph before = .ok base) (laid : base.type.target.Laid)
    (h : env.diff oracle constraints before after s = .ok found t) :
    base.type.target.leaves.Pairwise Leaf.Before ∧
      ∃ outcomes : List (Option Assignment), found = outcomes.reduceOption ∧
        List.Forall₂
          (fun leaf outcome => match outcome with
            | none => ∀ bytes c d, s.graph.Models bytes constraints →
                (s.graph.tree before).eval bytes = .ok c → (s.graph.tree after).eval bytes = .ok d →
                c.slice leaf.offset leaf.width = d.slice leaf.offset leaf.width
            | some a => a.place = ⟨base, leaf.path⟩ ∧
                ∃ g e, s.graph.Grows g ∧ g.Grows t.graph ∧ e < g.size ∧
                  env.lower g e = .ok a.value ∧ ∀ bytes d, (s.graph.tree after).eval bytes = .ok d →
                    (g.tree e).eval bytes = .ok (d.slice leaf.offset leaf.width))
          base.type.target.leaves outcomes := by
  let Same (l r : Tree) : Prop := ∀ bytes c d, s.graph.Models bytes constraints →
    l.eval bytes = .ok c → r.eval bytes = .ok d → c = d
  have confirms : oracle.Confirms constraints s.graph Same := by
    intro g l r s₁ s₂ grown hl hr answer bytes c d models
    refine sound g constraints l r s₁ s₂ grown.wellFormed
      (fun e he => grown.lt_size (hc e he)) hl hr
      answer bytes c d fun e he => ?_
    rw [grown.tree_eq wf (hc e he)]
    exact models e he
  obtain ⟨-, base', hbase', hout⟩ := (Diff.diff_ensures env wf hb ha confirms).of_ok rfl h
  obtain rfl : base = base' := Except.ok.inj (hbase.symm.trans hbase')
  obtain ⟨outcomes, hfound, hall⟩ := hout laid
  refine ⟨Ty.leaves_pairwise laid, outcomes, hfound, hall.imp fun leaf outcome ho => ?_⟩
  cases outcome with
  | some a => exact ho
  | none =>
    obtain ⟨l, r, offset, width, same, hl, hr, hfrom, hto, -⟩ := ho
    intro bytes c d models hcv hdv
    have hslice := same bytes _ _ models (hl bytes c hcv) (hr bytes d hdv)
    have hin : leaf.offset - offset + leaf.width ≤ width := by omega
    have hat : offset + (leaf.offset - offset) = leaf.offset := by omega
    calc c.slice leaf.offset leaf.width
        = (c.slice offset width).slice (leaf.offset - offset) leaf.width := by
          rw [Constant.slice_slice hin, hat]
      _ = (d.slice offset width).slice (leaf.offset - offset) leaf.width := by rw [hslice]
      _ = d.slice leaf.offset leaf.width := by rw [Constant.slice_slice hin, hat]

/-- Of a struct of two bytes, only the second one changes. -/
theorem diff_of_second_field :
    let type : Ty := .struct "pair" [⟨"low", 0, .byte⟩, ⟨"high", 1, .byte⟩] 2
    let env : Environment := { types := ⟨.ofList [(16, type)]⟩ }
    let oracle : Oracle Unit :=
      { alwaysEqual := fun g _ l r => pure (g.node l == g.node r),
        evaluate := fun _ _ _ => pure none }
    let g : Graph := { nodes := #[⟨.constant ⟨1, 8⟩, 8⟩, ⟨.constant ⟨2, 8⟩, 8⟩,
      ⟨.constant ⟨3, 8⟩, 8⟩, ⟨.concat 1 0, 16⟩, ⟨.concat 2 0, 16⟩] }
    let base : Code := .scalar type 513
    let found : List Assignment := [⟨⟨base, [.field "high"]⟩, .scalar .byte 3⟩]
    env.lower g 3 = .ok base ∧ oracle.Sound ∧ type.Laid ∧ g.WellFormed ∧
      ∃ t, env.diff oracle {} 3 4 ⟨g, ()⟩ = .ok found t ∧ type.leaves.Pairwise Leaf.Before ∧
        ∃ outcomes : List (Option Assignment), found = outcomes.reduceOption ∧
          outcomes.length = 2 := by
  intro type env oracle g base found
  have wf : g.WellFormed := by decide +kernel
  have sound : oracle.Sound := by
    intro h constraints l r s s' wh _ hl hr answer bytes c d _ hc hd
    have same : h.node l = h.node r := by
      have answer : EStateM.Result.ok (h.node l == h.node r) s = .ok true s' := answer
      simpa using (EStateM.Result.ok.inj answer).1
    have htree : h.tree l = h.tree r := by
      rw [wh.tree_eq hl, wh.tree_eq hr, Graph.expr, Graph.width, same]
      rfl
    exact Except.ok.inj (hc.symm.trans (htree ▸ hd))
  have laid : type.Laid :=
    ⟨⟨[⟨"low", 0, .byte⟩, ⟨"high", 1, .byte⟩], ⟨"pair", _, 2⟩, rfl, rfl⟩, trivial, trivial, trivial⟩
  have hbase : env.lower g 3 = .ok base := by decide +kernel
  have answer : answer? (env.diff oracle {} 3 4 ⟨g, ()⟩) = some found := by decide +kernel
  obtain ⟨t, run⟩ := eq_ok_of_answer? answer
  obtain ⟨hpairwise, outcomes, hfound, hall⟩ := diff_spec (s := ⟨g, ()⟩) wf (by decide) (by decide)
    (by decide) sound hbase laid run
  exact ⟨hbase, sound, laid, wf, t, run, hpairwise, outcomes, hfound, hall.length_eq.symm⟩

end Environment

end BitvectorCode
