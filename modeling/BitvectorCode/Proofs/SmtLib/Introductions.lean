import BitvectorCode.Proofs.SmtLib.Declarations

/-!
# The order of declarations

A name can be used in a script once a command has introduced it. Declarations introduce the arrays
one after another, each with the assertions about it, and then the nodes, each after its children.
Every array that a node below the targets reads is introduced once, and so is every node below them,
in whatever way the targets overlap. Nothing else is introduced, and no command refers to what comes
later.
-/

namespace BitvectorCode

namespace SmtLib

def Term.names : Term → List String
  | definition e => [nodeName e]
  | literal _ _ | bit _ => []
  | select array index => arrayName array :: index.names
  | zeroExtend _ t | signExtend _ t | extract _ _ t | not t => t.names
  | concat l r | binary _ l r => l.names ++ r.names
  | ite _ l r ifTrue ifFalse => l.names ++ r.names ++ ifTrue.names ++ ifFalse.names

namespace Command

def array? : Command → Option String
  | declareArray name => some name
  | _ => none

def node? : Command → Option NodeId
  | define e _ _ => some e
  | _ => none

def introduced? : Command → Option String
  | declareArray name => some (arrayName name)
  | define e _ _ => some (nodeName e)
  | _ => none

def children (g : Graph) : Command → List NodeId
  | define e _ _ => (g.expr e).children
  | _ => []

def names : Command → List String
  | assert _ l r => l.names ++ r.names
  | define _ _ body => body.names
  | getValue e => [nodeName e]
  | _ => []

/-- The command asserts something about the array, and refers to nothing else. -/
def AssertsAbout (name : String) (c : Command) : Prop :=
  ∃ op l r, c = assert op l r ∧ c.names = [arrayName name]

end Command

/-- What a command needs is given by commands before it. -/
def InOrder {α : Type} (needs : Command → List α) (gives : Command → Option α)
    (commands : List Command) :
    Prop :=
  ∀ before c after, commands = before ++ c :: after → ∀ x ∈ needs c, x ∈ before.filterMap gives

section InOrder

variable {α β : Type} {needs : Command → List α} {gives : Command → Option α}
    {first rest : List Command}

theorem inOrder_of_needs_nil (h : ∀ c ∈ first, needs c = []) : InOrder needs gives first := by
  intro before c after hsplit x hx
  have hc : c ∈ first := hsplit ▸ List.mem_append_cons_self
  rw [h c hc] at hx
  cases hx

theorem InOrder.append (hfirst : InOrder needs gives first)
    (hrest : ∀ before c after, rest = before ++ c :: after →
      ∀ x ∈ needs c, x ∈ (first ++ before).filterMap gives) :
    InOrder needs gives (first ++ rest) := by
  intro before c after hsplit x hx
  rcases List.append_eq_append_iff.1 hsplit with ⟨more, rfl, hmore⟩ | ⟨more, hmore, hafter⟩
  · exact hrest more c after hmore x hx
  · match more with
    | [] =>
      rw [List.append_nil] at hmore
      rw [← hmore]
      simpa using hrest [] c after hafter.symm x hx
    | d :: more =>
      obtain ⟨rfl, -⟩ := List.cons.inj hafter
      exact hfirst before _ more hmore x hx

theorem inOrder_flatMap {xs : List β} {block : β → List Command}
    (h : ∀ x ∈ xs, InOrder needs gives (block x)) : InOrder needs gives (xs.flatMap block) := by
  induction xs with
  | nil =>
    intro before c after hsplit
    simp at hsplit
  | cons x xs ih =>
    obtain ⟨hx, hxs⟩ := List.forall_mem_cons.1 h
    rw [List.flatMap_cons]
    refine hx.append fun before c after hsplit y hy => ?_
    rw [List.filterMap_append]
    exact List.mem_append_right _ (ih hxs before c after hsplit y hy)

end InOrder

section Roots

variable {root : Root} {roots : List Root}

def knownBytes (root : Root) : List Command :=
  (root.contents.getD []).zipIdx.map fun (byte, i) =>
    .assert .eq (.select root.name (.literal i indexBits)) (.literal byte.toNat 8)

theorem declareRoot_eq : declareRoot root = .declareArray root.name :: knownBytes root := rfl

theorem assertsAbout_of_mem_knownBytes {c : Command} (hc : c ∈ knownBytes root) :
    c.AssertsAbout root.name := by
  obtain ⟨_, -, rfl⟩ := List.mem_map.1 hc
  exact ⟨_, _, _, rfl, rfl⟩

theorem filterMap_declareRoots {α : Type} {gives : Command → Option α}
    (h : ∀ op l r, gives (.assert op l r) = none) :
    (roots.flatMap declareRoot).filterMap gives =
      roots.filterMap fun root => gives (.declareArray root.name) := by
  have hknown : ∀ root, (knownBytes root).filterMap gives = [] := by
    intro root
    rw [List.filterMap_eq_nil_iff]
    intro c hc
    obtain ⟨op, l, r, rfl, -⟩ := assertsAbout_of_mem_knownBytes hc
    exact h op l r
  induction roots with
  | nil => rfl
  | cons root roots ih =>
    simp only [List.flatMap_cons, List.filterMap_append, declareRoot_eq,
      List.filterMap_cons, hknown, ih]
    cases gives (.declareArray root.name) <;> rfl

theorem inOrder_declareRoot : InOrder Command.names Command.introduced? (declareRoot root) := by
  intro before c after hsplit name hname
  rw [declareRoot_eq] at hsplit
  match before with
  | [] =>
    obtain ⟨rfl, -⟩ := List.cons.inj hsplit
    cases hname
  | d :: before =>
    obtain ⟨rfl, hknown⟩ := List.cons.inj (hsplit.trans (List.cons_append ..))
    have hc : c ∈ knownBytes root := hknown ▸ List.mem_append_cons_self
    obtain ⟨_, _, _, -, hnames⟩ := assertsAbout_of_mem_knownBytes hc
    rw [hnames, List.mem_singleton] at hname
    simp [hname, Command.introduced?]

end Roots

end SmtLib

namespace Graph

open SmtLib

variable {g : Graph} {nodes targets : List NodeId} {e : NodeId} {name : String}

theorem names_term (h : name ∈ (g.term e).names) :
    (∃ child ∈ (g.expr e).children, name = nodeName child) ∨
      ∃ root, g.readRoot? e = some root ∧ name = arrayName root.name := by
  have hindex : ∀ index, (g.indexTerm index).names = [nodeName index] := by
    intro index
    dsimp only [indexTerm]
    split_ifs <;> rfl
  unfold term at h
  cases hx : g.expr e <;> rw [hx] at h <;>
    simp [Term.names, Term.ofRelation, hindex, Expr.children] at h ⊢
  case read r index =>
    rcases h with rfl | rfl
    · exact .inr ⟨_, readRoot?_eq_some_iff.2 ⟨r, index, hx, rfl⟩, rfl⟩
    · exact .inl rfl
  all_goals tauto

def defineNode (g : Graph) (e : NodeId) : Command := .define e (g.width e) (g.term e)

theorem inOrder_append_define {α : Type} {needs : Command → List α} {gives : Command → Option α}
    {first : List Command} (hfirst : InOrder needs gives first)
    (h : ∀ before e after, nodes = before ++ e :: after →
      ∀ x ∈ needs (g.defineNode e), x ∈ first.filterMap gives ∨
        x ∈ before.filterMap fun e => gives (g.defineNode e)) :
    InOrder needs gives (first ++ nodes.map g.defineNode) := by
  refine hfirst.append fun before c after hsplit x hx => ?_
  obtain ⟨before, rest, rfl, rfl, hrest⟩ := List.map_eq_append_iff.1 hsplit
  obtain ⟨e, after, rfl, rfl, rfl⟩ := List.map_eq_cons_iff.1 hrest
  rw [List.filterMap_append, List.filterMap_map, List.mem_append]
  exact h before e after rfl x hx

/-- The roots that stand for their names, in the order of these. -/
def declaredRoots (g : Graph) (targets : List NodeId) : List Root :=
  (g.rootsByName (g.dependencies targets)).toList.map Prod.snd

theorem declarations_eq : declarations g targets =
    (g.declaredRoots targets).flatMap declareRoot ++ (g.dependencies targets).map g.defineNode := by
  rw [declaredRoots, List.flatMap_map]
  rfl

theorem filterMap_declarations {α : Type} {gives : Command → Option α}
    (h : ∀ op l r, gives (.assert op l r) = none) :
    (declarations g targets).filterMap gives =
      (g.declaredRoots targets).filterMap (fun root => gives (.declareArray root.name)) ++
        (g.dependencies targets).filterMap fun e => gives (g.defineNode e) := by
  rw [declarations_eq, List.filterMap_append, filterMap_declareRoots h, List.filterMap_map]
  rfl

theorem arrays_declarations :
    (declarations g targets).filterMap Command.array? =
    (g.declaredRoots targets).map Root.name := by
  rw [filterMap_declarations fun _ _ _ => rfl]
  simp [Command.array?, defineNode, List.filterMap_eq_map']

theorem nodes_declarations : (declarations g targets).filterMap Command.node? =
    g.dependencies targets := by
  rw [filterMap_declarations fun _ _ _ => rfl]
  simp [Command.node?, defineNode]

theorem nodup_declaredRoots : ((g.declaredRoots targets).map Root.name).Nodup := by
  rw [List.Nodup, List.pairwise_map]
  exact pairwise_rootsByName

theorem children_first_declarations (ordered : g.ChildrenFirst (g.dependencies targets)) :
    InOrder (Command.children g) Command.node? (declarations g targets) := by
  rw [declarations_eq]
  refine inOrder_append_define (inOrder_of_needs_nil fun c hc => ?_)
    fun before e after hsplit child hchild => ?_
  · obtain ⟨root, -, hc⟩ := List.mem_flatMap.1 hc
    rcases List.mem_cons.1 hc with rfl | hc
    · rfl
    · obtain ⟨_, _, _, rfl, -⟩ := assertsAbout_of_mem_knownBytes hc
      rfl
  · exact .inr (List.mem_filterMap.2 ⟨child, ordered.children_mem hsplit child hchild, rfl⟩)

section WellFormed

variable (wf : g.WellFormed) (ht : ∀ e ∈ targets, e < g.size)
include wf ht

theorem WellFormed.mem_declaredRoots :
    name ∈ (g.declaredRoots targets).map Root.name ↔
      ∃ root, g.ReadsBelow targets root ∧ root.name = name := by
  simp only [declaredRoots, List.map_map, List.mem_map, Function.comp_apply]
  constructor
  · rintro ⟨entry, hentry, rfl⟩
    exact ⟨entry.2, (wf.readsBelow_of_mem ht hentry).2, rfl⟩
  · rintro ⟨root, hroot, rfl⟩
    obtain ⟨other, hother⟩ := wf.exists_mem_of_readsBelow ht hroot
    exact ⟨_, hother, (wf.readsBelow_of_mem ht hother).1⟩

/-- Names are introduced before commands refer to them. -/
theorem WellFormed.names_first_declarations :
    InOrder Command.names Command.introduced? (declarations g targets) := by
  obtain ⟨ordered, hnodes⟩ := wf.dependencies ht
  rw [declarations_eq]
  refine inOrder_append_define (inOrder_flatMap fun root _ => inOrder_declareRoot)
    fun before e after hsplit name hname => ?_
  rcases names_term hname with ⟨child, hchild, rfl⟩ | ⟨root, hroot, rfl⟩
  · exact .inr (List.mem_filterMap.2 ⟨child, ordered.children_mem hsplit child hchild, rfl⟩)
  · have he : g.Below targets e := (hnodes e).1 (hsplit ▸ List.mem_append_cons_self)
    have hdeclared := (wf.mem_declaredRoots ht).2 ⟨root, ⟨e, he, hroot⟩, rfl⟩
    obtain ⟨other, hother, hsame⟩ := List.mem_map.1 hdeclared
    rw [filterMap_declareRoots fun _ _ _ => rfl]
    exact .inl (List.mem_filterMap.2 ⟨other, hother, by rw [hsame]; rfl⟩)

end WellFormed

/-- The commands introduce what `targets` depend on: each array that is read and each node below
them once and nothing else, the arrays first and each with the assertions about it, and what a
command refers to before the command. -/
structure Introduces (g : Graph) (targets : List NodeId) (commands : List Command) : Prop where
  arrays_nodup : (commands.filterMap Command.array?).Nodup
  mem_arrays_iff : ∀ name, name ∈ commands.filterMap Command.array? ↔
    ∃ root, g.ReadsBelow targets root ∧ root.name = name
  nodes_nodup : (commands.filterMap Command.node?).Nodup
  mem_nodes_iff : ∀ n, n ∈ commands.filterMap Command.node? ↔ g.Below targets n
  arrays_first : ∃ (blocks : List (String × List Command)) (definitions : List Command),
    commands = blocks.flatMap (fun block => .declareArray block.1 :: block.2) ++ definitions ∧
      (∀ block ∈ blocks, ∀ c ∈ block.2, c.AssertsAbout block.1) ∧
      ∀ c ∈ definitions, c.node?.isSome
  children_first : InOrder (Command.children g) Command.node? commands
  names_first : InOrder Command.names Command.introduced? commands

/-- Declarations introduce what the targets depend on. -/
theorem WellFormed.introduces_declarations (wf : g.WellFormed) (ht : ∀ e ∈ targets, e < g.size) :
    g.Introduces targets (declarations g targets) := by
  obtain ⟨ordered, hnodes⟩ := wf.dependencies ht
  exact {
    arrays_nodup := by
      rw [arrays_declarations]
      exact nodup_declaredRoots
    mem_arrays_iff := fun name => by
      rw [arrays_declarations]
      exact wf.mem_declaredRoots ht
    nodes_nodup := by
      rw [nodes_declarations]
      exact ordered.nodup
    mem_nodes_iff := fun n => by
      rw [nodes_declarations]
      exact hnodes n
    arrays_first := by
      refine ⟨(g.declaredRoots targets).map fun root => (root.name, knownBytes root),
        (g.dependencies targets).map g.defineNode, ?_, ?_, ?_⟩
      · rw [declarations_eq, List.flatMap_map]
        rfl
      · simp only [List.forall_mem_map]
        exact fun root _ c hc => assertsAbout_of_mem_knownBytes hc
      · simp only [List.forall_mem_map]
        exact fun e _ => rfl
    children_first := children_first_declarations ordered
    names_first := wf.names_first_declarations ht }

/-- A byte of a packet is used twice, once to look up another in a table. Targets that share it, one
of them repeated, have it defined once, and a node that they do not reach is not defined. -/
theorem introduces_declarations_of_shared_byte :
    let g : Graph :=
      { nodes := #[⟨.constant ⟨3, 32⟩, 32⟩, ⟨.read 0 0, 8⟩, ⟨.not 1, 8⟩, ⟨.read 1 1, 8⟩,
          ⟨.concat 3 1, 16⟩],
        roots := #[.symbolic "packet" 64, .known "table" [7, 9]] }
    g.WellFormed ∧ (∀ e ∈ [1, 4, 1], e < g.size) ∧
      (declarations g [1, 4, 1]).filterMap Command.node? = [0, 1, 3, 4] ∧
      g.Introduces [1, 4, 1] (declarations g [1, 4, 1]) := by
  intro g
  have wf : g.WellFormed := by decide +kernel
  have ht : ∀ e ∈ [1, 4, 1], e < g.size := by decide
  exact ⟨wf, ht, by decide +kernel, wf.introduces_declarations ht⟩

end Graph

end BitvectorCode
