import BitvectorCode.Proofs.Lowering.Diff
import BitvectorCode.Proofs.Rewrite.Passes

/-!
# Runs

A graph is used by calling builders and passes on it, one after the other. Whatever the calls, and
whether they succeed or fail, the graph stays well formed and keeps every node and every root it
had. So passes never meet a node they could not rebuild, and fail only for reasons of their own. In
all calls the widths, and the sums that are compared with them, are such that a 64-bit word can hold
them.
-/

namespace BitvectorCode

namespace Inquiry

variable {σ : Type} {oracle : Oracle σ} {constraints : ConstraintSet} {g₀ : Graph} {e : NodeId}

theorem constantValue_ensures
    (hv : ∀ g c s s', oracle.evaluate g constraints e s = .ok (some c) s' → c.Valid) :
    Ensures (fun s : Inquiry σ => g₀.Grows s.graph) (constantValue oracle constraints e)
      (fun _ s => g₀.Grows s.graph) fun _ s => g₀.Grows s.graph := by
  apply Ensures.bind_get
  intro s grown
  have same : ∀ t, t = s → g₀.Grows t.graph := by
    rintro _ rfl
    exact grown
  cases hx : s.graph.expr e with
  | constant c => exact .pure same
  | _ =>
    apply (ask_grows.weaken_pre same).bind
    intro answer
    cases answer with
    | none => exact .pure fun t ht => ht.1
    | some value =>
      intro t ht
      rcases ht with ⟨ht, s₁, s₂, run⟩
      apply Ensures.bind (build_ensures (Build.constant_adds (hv _ value s₁ s₂ run))) _ t ht
      intro candidate
      apply (ask_grows.weaken_pre fun _ h => h.1).bind
      intro equal
      cases equal <;> exact .pure fun _ h => h.1

end Inquiry

namespace Graph

/-- A word can hold the width of every node. -/
def WidthsFit (g : Graph) : Prop := ∀ node ∈ g.nodes, node.width < UInt64.size

instance (g : Graph) : Decidable g.WidthsFit :=
  inferInstanceAs (Decidable (∀ node ∈ g.nodes, node.width < UInt64.size))

/-- A word can hold the sum that the width of a new node is checked with. -/
def SumsFit (g : Graph) : Expr → Prop
  | .concat high low => g.width high + g.width low < UInt64.size
  | .extract _ offset width => offset + width < UInt64.size
  | _ => True

end Graph

mutual
/-- A word can hold the places of the parts of a type, counted in bits. -/
def Ty.PartsFit : Ty → Prop
  | .struct _ fields _ => FieldsFit fields
  | .array element count => element.bits * count < UInt64.size
  | _ => True

def Ty.FieldsFit : List (Field Ty) → Prop
  | [] => True
  | ⟨_, offset, type⟩ :: rest =>
    offset * 8 + type.bits < UInt64.size ∧ PartsFit type ∧ FieldsFit rest
end

/-- A call that works on a graph. A pass brings the renamer, the swapper, the oracle or the
environment it works with, in whatever state that is. -/
inductive Call : Type 1 where
  | addRoot (root : Root)
  | add (expr : Expr) (width : Nat)
  | ofExpr (width : Nat) (expr : Expr)
  | readAt (root : RootId) (index : Nat)
  | readBytes (root : RootId) (index bytes : Nat)
  | narrowExtract (e : NodeId)
  | rename (renamer : Renamer) (e : NodeId)
  | renameSets (renamer : Renamer) (sets : List ConstraintSet)
  | swap (names : NameGenerator) (swapper : ByteSwapper) (e : NodeId)
  | fold (e : NodeId)
  | constantValue {σ : Type} (oracle : Oracle σ) (state : σ) (constraints : ConstraintSet)
      (e : NodeId)
  | diff {σ : Type} (env : Environment) (oracle : Oracle σ) (state : σ)
      (constraints : ConstraintSet) (before after : NodeId)

namespace Call

def ended {σ α : Type} (graph : σ → Graph) : EStateM.Result Error σ α → Option Error × Graph
  | .ok _ s => (none, graph s)
  | .error err s => (some err, graph s)

def run (g : Graph) : Call → Option Error × Graph
  | addRoot root => ended id (Build.addRoot root g)
  | add expr width => ended id (Build.add expr width g)
  | ofExpr width expr => ended id (Build.ofExpr width expr g)
  | readAt root index => ended id (Build.readAt root index g)
  | readBytes root index bytes => ended id (Build.readBytes root index bytes g)
  | narrowExtract e => ended id (Build.narrowExtract e g)
  | rename renamer e => ended Renaming.graph (Renaming.rename e ⟨g, renamer⟩)
  | renameSets renamer sets => ended Renaming.graph (Renaming.renameSets sets ⟨g, renamer⟩)
  | swap names swapper e => ended Swapping.graph (Swapping.swap e ⟨g, names, swapper⟩)
  | fold e => ended id (Build.fold e g)
  | constantValue oracle state constraints e =>
    ended Inquiry.graph (Inquiry.constantValue oracle constraints e ⟨g, state⟩)
  | diff env oracle state constraints before after =>
    ended Inquiry.graph (env.diff oracle constraints before after ⟨g, state⟩)

/-- What the caller takes care of: constants fit their widths, those of an oracle too, the nodes
that a pass starts at and the roots of an unchecked node are in the graph, and a word can hold the
sums that new nodes and the parts of a type are checked with. -/
def Admissible (g : Graph) : Call → Prop
  | addRoot _ | readAt _ _ | readBytes _ _ _ => True
  | add expr _ => (∀ r ∈ expr.roots, r < g.roots.size) ∧
      (∀ c, expr.constant? = some c → c.Valid) ∧ g.SumsFit expr
  | ofExpr _ expr => (∀ c, expr.constant? = some c → c.Valid) ∧ g.SumsFit expr
  | narrowExtract e | rename _ e | swap _ _ e | fold e => e < g.size
  | renameSets _ sets => ∀ set ∈ sets, ∀ e ∈ set.constraints, e < g.size
  | constantValue oracle _ constraints e =>
    ∀ h c s s', oracle.evaluate h constraints e s = .ok (some c) s' → c.Valid
  | diff env _ _ _ before after => before < g.size ∧ after < g.size ∧
      ∀ base, env.lower g before = .ok base → base.type.target.PartsFit

/-- The errors a call may end in. Renaming and swapping never fail, narrowing fails only where bits
lie on both sides of a boundary, and folding only where an operation is too wide to evaluate. -/
def MayFail : Call → Error → Prop
  | rename _ _, _ | swap _ _ _, _ => False
  | narrowExtract _, err => ∃ offset width, err = .straddlesConcat offset width
  | fold _, err => ∃ width, err = .tooWide width
  | _, _ => True

variable {g : Graph}

theorem ended_spec {σ α : Type} (graph : σ → Graph) {fails : Error → Prop} {x : EStateM Error σ α}
    {p : α → σ → Prop} {s : σ}
    (h : Ensures (fun s => g.Grows (graph s)) x (fun a s => g.Grows (graph s) ∧ p a s)
      fun err s => g.Grows (graph s) ∧ fails err) (hs : g.Grows (graph s)) :
    g.Grows (ended graph (x s)).2 ∧ ∀ err, (ended graph (x s)).1 = some err → fails err := by
  obtain ⟨a, t, hx, ht, -⟩ | ⟨err, t, hx, ht, hfails⟩ := h.outcome hs
  · rw [hx]
    constructor
    · exact ht
    intro err h
    cases h
  · rw [hx]
    refine ⟨ht, fun err' h => ?_⟩
    cases h
    exact hfails

theorem ended_grows {σ α : Type} (graph : σ → Graph) {x : EStateM Error σ α} {s : σ}
    (h : Ensures (fun s => g.Grows (graph s)) x (fun _ s => g.Grows (graph s))
      fun _ s => g.Grows (graph s)) (hs : g.Grows (graph s)) :
    g.Grows (ended graph (x s)).2 ∧ ∀ err, (ended graph (x s)).1 = some err → True :=
  ended_spec graph (p := fun _ _ => True) (h.weaken (fun _ h => h) (fun _ _ h => ⟨h, trivial⟩)
    fun _ _ h => ⟨h, trivial⟩) hs

/-- One call grows a well-formed graph, and ends in no other error than it may. -/
theorem run_grows (call : Call) (wf : g.WellFormed) (ok : call.Admissible g) :
    g.Grows (call.run g).2 ∧ ∀ err, (call.run g).1 = some err → call.MayFail err := by
  have start := wf.grows
  have adds {x : Build NodeId} (h : Build.Adds g x) :
      g.Grows (ended id (x g)).2 ∧ ∀ err, (ended id (x g)).1 = some err → True :=
    ended_grows id (h.weaken (fun _ h => h) (fun _ _ h => h.1) fun _ _ h => h) start
  cases call with
  | addRoot root =>
    have added : Ensures g.Grows (Build.addRoot root) (fun _ h => g.Grows h) fun _ h => g.Grows h :=
      Build.addRoot_ensures.weaken (fun _ h => h) (fun _ _ h => h.1) fun _ _ h => h.elim
    exact ended_grows id added start
  | add expr width =>
    have added : Ensures g.Grows (Build.add expr width) (fun _ h => g.Grows h)
        fun _ h => g.Grows h :=
      (Build.add_ensures ok.2.1).weaken (fun h grown => ⟨grown, fun r hr =>
        Nat.lt_of_lt_of_le (ok.1 r hr) grown.isExtendedBy.roots_size_le⟩) (fun _ _ h => h.1)
        fun _ _ h => h
    exact ended_grows id added start
  | ofExpr width expr => exact adds (Build.ofExpr_adds ok.1)
  | readAt root index => exact adds Build.readAt_adds
  | readBytes root index bytes => exact adds Build.readBytes_adds
  | narrowExtract e => exact ended_spec id (Build.narrowExtract_replaces ok) start
  | rename renamer e => exact ended_spec Renaming.graph (Renaming.rename_replaces ok) start
  | renameSets renamer sets =>
    exact ended_grows Renaming.graph (Renaming.renameSets_ensures ok) start
  | swap names swapper e => exact ended_spec Swapping.graph (Swapping.swap_replaces ok) start
  | fold e => exact ended_spec id (Build.fold_replaces ok) start
  | constantValue oracle state constraints e =>
    exact ended_grows Inquiry.graph (Inquiry.constantValue_ensures ok) start
  | diff env oracle state constraints before after =>
    have confirms : oracle.Confirms constraints g fun _ _ => True :=
      fun _ _ _ _ _ _ _ _ _ => trivial
    have walk := Diff.diff_ensures env (s := ⟨g, state⟩) wf ok.1 ok.2.1 confirms
    obtain ⟨found, t, hx, ht, -⟩ | ⟨err, t, hx, ht⟩ := walk.outcome rfl
    · simp only [run, hx]
      exact ⟨ht, fun _ _ => trivial⟩
    · simp only [run, hx]
      exact ⟨ht, fun _ _ => trivial⟩

end Call

/-- The graphs that calls lead to from the empty one, whether they succeed or fail, as long as a
word can hold all widths. -/
inductive Reachable : Graph → Prop
  | empty : Reachable {}
  | call {g : Graph} (call : Call) : Reachable g → call.Admissible g → (call.run g).2.WidthsFit →
      Reachable (call.run g).2

namespace Reachable

variable {g : Graph}

theorem wellFormed (h : Reachable g) : g.WellFormed := by
  induction h with
  | empty => exact Graph.wellFormed_empty
  | call call _ ok _ ih => exact (call.run_grows ih ok).1.wellFormed

/-- Every graph that is reached is well formed, and every call on it, whether it succeeds or fails,
keeps the nodes and roots that were there and ends in no other error than it may. -/
theorem run_extends (h : Reachable g) :
    g.WellFormed ∧ ∀ call : Call, call.Admissible g →
      g.IsExtendedBy (call.run g).2 ∧ ∀ err, (call.run g).1 = some err → call.MayFail err := by
  refine ⟨h.wellFormed, fun call ok => ?_⟩
  obtain ⟨grown, fails⟩ := call.run_grows h.wellFormed ok
  exact ⟨grown.isExtendedBy, fails⟩

/-- Bits on both sides of a boundary are refused, and the graph stays as it was. -/
theorem narrowExtract_across_boundary :
    let calls : List Call := [.ofExpr 8 (.constant ⟨1, 8⟩), .ofExpr 8 (.constant ⟨2, 8⟩),
      .ofExpr 16 (.concat 1 0), .ofExpr 4 (.extract 2 6 4)]
    let g := calls.foldl (fun g call => (call.run g).2) {}
    Reachable g ∧ (Call.narrowExtract 3).Admissible g ∧
      ((Call.narrowExtract 3).run g).1 = some (.straddlesConcat 6 4) ∧
      g.IsExtendedBy ((Call.narrowExtract 3).run g).2 := by
  intro calls g
  have first : ∀ c : Constant, (Expr.constant ⟨1, 8⟩).constant? = some c → c.Valid := by
    rintro _ ⟨⟩
    decide
  have second : ∀ c : Constant, (Expr.constant ⟨2, 8⟩).constant? = some c → c.Valid := by
    rintro _ ⟨⟩
    decide
  have third : ∀ c : Constant, (Expr.concat 1 0).constant? = some c → c.Valid := nofun
  have fourth : ∀ c : Constant, (Expr.extract 2 6 4).constant? = some c → c.Valid := nofun
  have bytes : Reachable (calls.take 2 |>.foldl (fun g call => (call.run g).2) {}) :=
    .call _ (.call _ .empty ⟨first, trivial⟩ (by decide +kernel)) ⟨second, trivial⟩
      (by decide +kernel)
  have word : Reachable (calls.take 3 |>.foldl (fun g call => (call.run g).2) {}) :=
    .call _ bytes ⟨third, show 8 + 8 < UInt64.size by decide⟩ (by decide +kernel)
  have reached : Reachable g :=
    .call _ word ⟨fourth, show 6 + 4 < UInt64.size by decide⟩ (by decide +kernel)
  have ok : (Call.narrowExtract 3).Admissible g := show 3 < g.size by decide +kernel
  exact ⟨reached, ok, by decide +kernel, (reached.run_extends.2 _ ok).1⟩

end Reachable

end BitvectorCode
