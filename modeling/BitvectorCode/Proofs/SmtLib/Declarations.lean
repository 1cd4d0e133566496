import BitvectorCode.Proofs.SmtLib.Dependencies
import BitvectorCode.Proofs.SmtLib.Nodes

/-!
# The meaning of declarations

Declarations are about text that can tell everything apart: bars can quote the names of roots, no
root has the name of a node, roots of one name have the same contents, these end within 32-bit
indices, and no node is empty. They can be run unless a root has the name of a symbol of the logic.
Whatever the declared arrays are, everything asserted holds exactly when they have the known bytes,
and then each definition has the value of its node.
-/

namespace BitvectorCode

namespace SmtLib

variable {arrays : Arrays} {s : State}

theorem nodeName_injective {e n : NodeId} (h : nodeName e = nodeName n) : e = n := by
  have hrepr : e.repr = n.repr := by
    have := congrArg String.toList h
    rw [toList_nodeName, toList_nodeName] at this
    exact String.toList_inj.1 (List.cons.inj this).2
  exact Option.some.inj ((numeral?_repr e).symm.trans
    ((congrArg numeral? hrepr).trans (numeral?_repr n)))

def isNodeName (name : String) : Bool :=
  match name.toList with
  | 'e' :: digits => (numeral? (String.ofList digits)).isSome
  | _ => false

theorem isNodeName_iff {name : String} : isNodeName name = true ↔ ∃ e, name = nodeName e := by
  constructor
  · intro h
    unfold isNodeName at h
    split at h
    · next digits hdigits =>
      obtain ⟨e, he⟩ := Option.isSome_iff_exists.1 h
      have hrepr : toString e = String.ofList digits := by
        simpa using (Option.filter_eq_some_iff.1 he).2
      refine ⟨e, String.toList_inj.1 ?_⟩
      rw [hdigits, toList_nodeName, show e.repr = toString e from rfl, hrepr, String.toList_ofList]
    · cases h
  · rintro ⟨e, rfl⟩
    simp only [isNodeName, toList_nodeName, String.ofList_toList, numeral?_repr, Option.isSome_some]

theorem nodeName_not_mem_theorySymbols (e : NodeId) : nodeName e ∉ theorySymbols := by
  have first : ∀ name ∈ theorySymbols, name.toList.head? ≠ some 'e' := by decide +kernel
  intro h
  apply first _ h
  rw [toList_nodeName]
  rfl

namespace State

def extended (s : State) (name : String) (v : Value) : State :=
  { s with scope := fun other => if other = name then some v else s.scope other }

@[simp] theorem holds_extended (name : String) (v : Value) :
    (s.extended name v).holds = s.holds := rfl

theorem scope_extended_self (name : String) (v : Value) : (s.extended name v).scope name = some v :=
  if_pos rfl

theorem scope_extended_of_ne {name other : String} (v : Value) (h : other ≠ name) :
    (s.extended name v).scope other = s.scope other := if_neg h

theorem add_of_new {name : String} (v : Value) (hname : name ∉ theorySymbols)
    (h : s.scope name = none) : s.add name v = some (s.extended name v) := by
  simp [add, extended, h, hname]

def runAll (arrays : Arrays) (s : State) (commands : List Command) : Option State :=
  commands.foldlM (fun s c => s.run arrays c.toSExpr) s

theorem runAll_nil : s.runAll arrays [] = some s := rfl

theorem runAll_cons {c : Command} {commands : List Command} {t : State}
    (h : s.run arrays c.toSExpr = some t) :
    s.runAll arrays (c :: commands) = t.runAll arrays commands := by
  rw [runAll, List.foldlM_cons, h]
  rfl

theorem runAll_eq_none {c : Command} {commands : List Command} (hc : c ∈ commands)
    (h : ∀ s : State, s.run arrays c.toSExpr = none) : s.runAll arrays commands = none := by
  induction commands generalizing s with
  | nil => cases hc
  | cons first rest ih =>
    cases hrun : s.run arrays first.toSExpr with
    | none => rw [runAll, List.foldlM_cons, hrun]; rfl
    | some t =>
      have hrest : c ∈ rest := (List.mem_cons.1 hc).resolve_left fun hfirst => by
        rw [← hfirst, h] at hrun
        cases hrun
      exact (runAll_cons hrun).trans (ih hrest)

theorem runAll_append {before after : List Command} {t : State}
    (h : s.runAll arrays before = some t) :
    s.runAll arrays (before ++ after) = t.runAll arrays after := by
  rw [runAll] at h
  rw [runAll, List.foldlM_append, h]
  rfl

theorem run_declareArray {name : String} (hname : name ∉ theorySymbols) (h : s.scope name = none) :
    s.run arrays (Command.declareArray name).toSExpr =
      some (s.extended name (.array (arrays name))) := by
  have hsort : byteArraySort.isSortOf (.array (arrays name)) = true := by
    simp [byteArraySort, bitVecSort, SExpr.isSortOf, SExpr.bitVecWidth?, numeral?_repr, indexBits]
  simp [Command.toSExpr, run, SExpr.symbol?, hsort, add_of_new _ hname h]

theorem run_declareArray_of_mem_theorySymbols {name : String} (h : name ∈ theorySymbols) :
    s.run arrays (Command.declareArray name).toSExpr = none := by
  simp [Command.toSExpr, run, SExpr.symbol?, add, h]

theorem run_define {e : NodeId} {w : Nat} {body : Term} {v : BitVec w}
    (hnew : s.scope (nodeName e) = none) (hbody : body.value s.scope = some (.bits v))
    (hw : 0 < w) :
    s.run arrays (Command.define e w body).toSExpr = some (s.extended (nodeName e) (.bits v)) := by
  rw [Term.value] at hbody
  simp [Command.toSExpr, run, SExpr.symbol?_nodeName, hbody, SExpr.isSortOf_bitVecSort hw,
    add_of_new _ (nodeName_not_mem_theorySymbols e) hnew]

theorem run_assert {w : Nat} {t u : Term} {l r : BitVec w} (ht : t.value s.scope = some (.bits l))
    (hu : u.value s.scope = some (.bits r)) (op : CompareOp) :
    s.run arrays (Command.assert op t u).toSExpr =
      some { s with holds := s.holds && op.total l r } := by
  simp [Command.toSExpr, run, Term.value_relation ht hu op]

theorem runAll_assert {α : Type} {xs : List α} {op : CompareOp} {t u : α → Term} {p : α → Bool}
    (h : ∀ x ∈ xs, ∃ (w : Nat) (l r : BitVec w), (t x).value s.scope = some (.bits l) ∧
      (u x).value s.scope = some (.bits r) ∧ op.total l r = p x) :
    s.runAll arrays (xs.map fun x => .assert op (t x) (u x)) =
      some { s with holds := s.holds && xs.all p } := by
  induction xs generalizing s with
  | nil => simp [runAll_nil]
  | cons x xs ih =>
    obtain ⟨⟨w, l, r, ht, hu, hp⟩, hxs⟩ := List.forall_mem_cons.1 h
    rw [List.map_cons, runAll_cons (run_assert ht hu op), hp, List.all_cons, ← Bool.and_assoc]
    exact ih hxs

end State

theorem run?_script {commands : List Command}
    (h : ∀ c ∈ commands, ∀ name ∈ c.arrays, Quotable name) :
    run? arrays (script commands) = ({} : State).runAll arrays commands := by
  rw [run?, read?_script h]
  exact List.foldlM_map ..

end SmtLib

theorem Root.byte?_eq (root : Root) (i : Nat) : root.byte? i = (root.contents.getD [])[i]? := by
  unfold byte?
  cases root.contents <;> simp

namespace SmtLib.State

variable {arrays : Arrays} {s : State} {roots : List Root}

/-- From `s` to `t` the roots were declared: their arrays came into scope, and everything asserted
still holds exactly when these have the known bytes. -/
structure Declares (arrays : Arrays) (roots : List Root) (s t : State) : Prop where
  declared : ∀ root ∈ roots, t.scope root.name = some (.array (arrays root.name))
  kept : ∀ name, (∀ root ∈ roots, root.name ≠ name) → t.scope name = s.scope name
  holds_iff : t.holds = true ↔ s.holds = true ∧ ∀ root ∈ roots, arrays.Know root

theorem runAll_declareRoot (arrays : Arrays) {root : Root} (hname : root.name ∉ theorySymbols)
    (hnew : s.scope root.name = none)
    (hlength : (root.contents.getD []).length ≤ 2 ^ indexBits) :
    ∃ t, s.runAll arrays (declareRoot root) = some t ∧ Declares arrays [root] s t := by
  let declared := s.extended root.name (.array (arrays root.name))
  let right : UInt8 × Nat → Bool := fun x => arrays root.name (.ofNat indexBits x.2) == x.1.toBitVec
  have hbytes : declared.runAll arrays ((root.contents.getD []).zipIdx.map fun x =>
      .assert .eq (.select root.name (.literal x.2 indexBits)) (.literal x.1.toNat 8)) =
      some { declared with
        holds := declared.holds && (root.contents.getD []).zipIdx.all right } := by
    refine runAll_assert ?_
    rintro ⟨byte, i⟩ hbyte
    have hi : i < (root.contents.getD []).length :=
      (List.getElem?_eq_some_iff.1 (List.mem_zipIdx_iff_getElem?.1 hbyte)).1
    refine ⟨8, arrays root.name (.ofNat indexBits i), .ofNat 8 byte.toNat, ?_,
      Term.value_literal (by decide) byte.toBitVec.isLt, ?_⟩
    · exact Term.value_select (scope_extended_self ..)
        (Term.value_literal (by decide) (Nat.lt_of_lt_of_le hi hlength))
    · exact congrArg (_ == ·) (BitVec.ofNat_toNat 8 byte.toBitVec)
  have hright : (root.contents.getD []).zipIdx.all right = true ↔ arrays.Know root := by
    rw [List.all_eq_true]
    constructor
    · intro h i byte hbyte
      rw [Root.byte?_eq] at hbyte
      exact beq_iff_eq.1 (h (byte, i) (List.mem_zipIdx_iff_getElem?.2 hbyte))
    · rintro h ⟨byte, i⟩ hbyte
      refine beq_iff_eq.2 (h i byte ?_)
      rw [Root.byte?_eq]
      exact List.mem_zipIdx_iff_getElem?.1 hbyte
  refine ⟨_, (runAll_cons (run_declareArray hname hnew)).trans hbytes, ?_, ?_, ?_⟩
  · simpa using scope_extended_self root.name _
  · exact fun name hname => scope_extended_of_ne _ (hname root (by simp)).symm
  · simp only [Bool.and_eq_true, hright, List.forall_mem_singleton]
    rfl

theorem runAll_declareRoots (arrays : Arrays) (hname : ∀ root ∈ roots, root.name ∉ theorySymbols)
    (hnew : ∀ root ∈ roots, s.scope root.name = none)
    (hdistinct : roots.Pairwise fun a b => a.name ≠ b.name)
    (hlength : ∀ root ∈ roots, (root.contents.getD []).length ≤ 2 ^ indexBits) :
    ∃ t, s.runAll arrays (roots.flatMap declareRoot) = some t ∧ Declares arrays roots s t := by
  induction roots generalizing s with
  | nil => exact ⟨s, rfl, by simp, fun _ _ => rfl, by simp⟩
  | cons root roots ih =>
    obtain ⟨hname, hrest⟩ := List.forall_mem_cons.1 hname
    obtain ⟨hnew, hnews⟩ := List.forall_mem_cons.1 hnew
    obtain ⟨hfirst, hdistinct⟩ := List.pairwise_cons.1 hdistinct
    obtain ⟨hlength, hlengths⟩ := List.forall_mem_cons.1 hlength
    obtain ⟨middle, hmiddle, first⟩ := runAll_declareRoot arrays hname hnew hlength
    have hnews : ∀ other ∈ roots, middle.scope other.name = none := fun other hother =>
      (first.kept _ (by simpa using hfirst other hother)).trans (hnews other hother)
    obtain ⟨t, ht, rest⟩ := ih hrest hnews hdistinct hlengths
    refine ⟨t, (runAll_append hmiddle).trans ht, List.forall_mem_cons.2 ⟨?_, rest.declared⟩, ?_, ?_⟩
    · rw [rest.kept _ fun other hother => (hfirst other hother).symm]
      exact first.declared root (by simp)
    · intro name hname
      obtain ⟨hname, hnames⟩ := List.forall_mem_cons.1 hname
      rw [rest.kept name hnames, first.kept name (by simpa using hname)]
    · rw [rest.holds_iff, first.holds_iff, List.forall_mem_singleton,
        List.forall_mem_cons, and_assoc]

end SmtLib.State

namespace Graph

open SmtLib

variable {g : Graph} {nodes targets : List NodeId} {arrays : Arrays} {bytes : Bytes} {s : State}

theorem WellFormed.runAll_define (wf : g.WellFormed) (ordered : g.ChildrenFirst nodes)
    (hsize : ∀ e ∈ nodes, e < g.size) (hwidth : ∀ e ∈ nodes, 0 < g.width e)
    (hnew : ∀ e ∈ nodes, s.scope (nodeName e) = none)
    (hreads : ∀ e ∈ nodes, ∀ root, g.readRoot? e = some root → s.Reads arrays bytes root) :
    ∃ t, s.runAll arrays (nodes.map fun e => .define e (g.width e) (g.term e)) = some t ∧
      t.holds = s.holds ∧ (∀ name, (∀ e ∈ nodes, nodeName e ≠ name) → t.scope name = s.scope name) ∧
      ∀ e ∈ nodes, (Term.definition e).Denotes bytes t (g.width e) (g.tree e) := by
  induction ordered with
  | nil => exact ⟨s, rfl, rfl, fun _ _ => rfl, by simp⟩
  | @snoc nodes e before new children ih =>
    simp only [List.forall_mem_append, List.forall_mem_singleton] at hsize hwidth hnew hreads
    obtain ⟨t, ht, hholds, hkept, hnodes⟩ := ih hsize.1 hwidth.1 hnew.1 hreads.1
    have hfresh : t.scope (nodeName e) = none := by
      refine (hkept _ fun n hn hname => ?_).trans hnew.2
      exact new (nodeName_injective hname ▸ hn)
    have reads : ∀ root, g.readRoot? e = some root → t.Reads arrays bytes root := by
      intro root hroot
      obtain ⟨hscope, hagree⟩ := hreads.2 root hroot
      refine ⟨(hkept _ fun n hn hname => ?_).trans hscope, hholds ▸ hagree⟩
      rw [← hname, hnew.1 n hn] at hscope
      cases hscope
    have body := wf.denotes_term hsize.2 hwidth.2
      (fun child hc => hnodes child (children child hc)) reads
    obtain ⟨v, hv, hvalue⟩ := body
    refine ⟨t.extended (nodeName e) (.bits v), ?_, hholds, fun name hname => ?_, ?_⟩
    · rw [List.map_append, State.runAll_append ht]
      exact State.runAll_cons (State.run_define hfresh hv hwidth.2)
    · simp only [List.forall_mem_append, List.forall_mem_singleton] at hname
      rw [State.scope_extended_of_ne _ hname.2.symm, hkept name hname.1]
    · simp only [List.forall_mem_append, List.forall_mem_singleton, Term.Denotes,
        Term.value_definition]
      refine ⟨fun n hn => ?_, v, State.scope_extended_self .., hvalue⟩
      have hne : nodeName n ≠ nodeName e := fun hname => new (nodeName_injective hname ▸ hn)
      rw [State.scope_extended_of_ne _ hne]
      obtain ⟨x, hx, hvalue⟩ := hnodes n hn
      exact ⟨x, (Term.value_definition n).symm.trans hx, hvalue⟩

/-- Some node below `targets` reads the root. -/
def ReadsBelow (g : Graph) (targets : List NodeId) (root : Root) : Prop :=
  ∃ n, g.Below targets n ∧ g.readRoot? n = some root

/-- The text of declarations can tell apart what `targets` depend on. -/
structure ToldApart (g : Graph) (targets : List NodeId) : Prop where
  width_pos : ∀ n, g.Below targets n → 0 < g.width n
  quotable : ∀ root, g.ReadsBelow targets root → Quotable root.name
  name_ne : ∀ root, g.ReadsBelow targets root → ∀ e, root.name ≠ nodeName e
  length_le : ∀ root, g.ReadsBelow targets root → (root.contents.getD []).length ≤ 2 ^ indexBits
  contents_eq : ∀ root other, g.ReadsBelow targets root → g.ReadsBelow targets other →
    root.name = other.name → root.contents = other.contents

/-- The text can also be run: no root has the name of a symbol of the logic. -/
structure Declarable (g : Graph) (targets : List NodeId) : Prop extends g.ToldApart targets where
  name_new : ∀ root, g.ReadsBelow targets root → root.name ∉ theorySymbols

theorem mem_rootsByName {entry : String × Root} (h : entry ∈ (g.rootsByName nodes).toList) :
    entry.2.name = entry.1 ∧ ∃ n ∈ nodes, g.readRoot? n = some entry.2 := by
  obtain ⟨name, root⟩ := entry
  rw [Std.TreeMap.mem_toList_iff_getElem?_eq_some, getElem?_rootsByName] at h
  exact ⟨by simpa using List.find?_some h, List.mem_filterMap.1 (List.mem_of_find?_eq_some h)⟩

theorem exists_mem_rootsByName {n : NodeId} {root : Root} (hn : n ∈ nodes)
    (hread : g.readRoot? n = some root) :
    ∃ other, (root.name, other) ∈ (g.rootsByName nodes).toList := by
  have hfound :
      ((nodes.filterMap g.readRoot?).find? fun other => other.name = root.name).isSome := by
    rw [List.find?_isSome]
    exact ⟨root, List.mem_filterMap.2 ⟨n, hn, hread⟩, by simp⟩
  obtain ⟨other, hother⟩ := Option.isSome_iff_exists.1 hfound
  refine ⟨other, ?_⟩
  rw [Std.TreeMap.mem_toList_iff_getElem?_eq_some, getElem?_rootsByName, hother]

theorem pairwise_rootsByName :
    ((g.rootsByName nodes).toList.map Prod.snd).Pairwise fun a b => a.name ≠ b.name := by
  have hkeys := Std.TreeMap.distinct_keys_toList (t := g.rootsByName nodes)
  rw [List.pairwise_map]
  refine hkeys.imp_of_mem fun {a b} ha hb hne heq => ?_
  rw [(mem_rootsByName ha).1, (mem_rootsByName hb).1] at heq
  exact hne (Std.compare_eq_iff_eq.2 heq)

theorem arrays_term {e : NodeId} {name : String} (h : name ∈ (g.term e).arrays) :
    ∃ root, g.readRoot? e = some root ∧ root.name = name := by
  have hindex : ∀ index, (g.indexTerm index).arrays = [] := by
    intro index
    dsimp only [indexTerm]
    split_ifs <;> rfl
  unfold term at h
  cases hx : g.expr e <;> rw [hx] at h <;> simp [Term.arrays, Term.ofRelation, hindex] at h
  next r index => exact ⟨_, readRoot?_eq_some_iff.2 ⟨r, index, hx, rfl⟩, h.symm⟩

theorem WellFormed.readsBelow_iff (wf : g.WellFormed) (ht : ∀ e ∈ targets, e < g.size)
    {root : Root} :
    g.ReadsBelow targets root ↔ root ∈ (g.dependencies targets).filterMap g.readRoot? := by
  simp only [ReadsBelow, ← (wf.dependencies ht).2, List.mem_filterMap]

/-- Whether declarations can tell everything apart is seen from the dependencies. -/
theorem WellFormed.declarable_iff (wf : g.WellFormed) (ht : ∀ e ∈ targets, e < g.size) :
    g.Declarable targets ↔ (∀ n ∈ g.dependencies targets, 0 < g.width n) ∧
      ∀ root ∈ (g.dependencies targets).filterMap g.readRoot?,
        Quotable root.name ∧ isNodeName root.name = false ∧ root.name ∉ theorySymbols ∧
        (root.contents.getD []).length ≤ 2 ^ indexBits ∧
        ∀ other ∈ (g.dependencies targets).filterMap g.readRoot?,
          root.name = other.name → root.contents = other.contents := by
  have hname : ∀ name, isNodeName name = false ↔ ∀ e, name ≠ nodeName e := fun name => by
    rw [← Bool.not_eq_true, isNodeName_iff, not_exists]
  simp only [← wf.readsBelow_iff ht, (wf.dependencies ht).2, hname]
  constructor
  · intro h
    exact ⟨h.width_pos, fun root hroot => ⟨h.quotable root hroot, h.name_ne root hroot,
      h.name_new root hroot, h.length_le root hroot,
      fun other hother => h.contents_eq root other hroot hother⟩⟩
  · rintro ⟨hwidth, h⟩
    exact {
      width_pos := hwidth
      quotable := fun root hroot => (h root hroot).1
      name_ne := fun root hroot => (h root hroot).2.1
      name_new := fun root hroot => (h root hroot).2.2.1
      length_le := fun root hroot => (h root hroot).2.2.2.1
      contents_eq := fun root other hroot => (h root hroot).2.2.2.2 other }

theorem WellFormed.readsBelow_of_mem (wf : g.WellFormed) (ht : ∀ e ∈ targets, e < g.size)
    {entry : String × Root} (h : entry ∈ (g.rootsByName (g.dependencies targets)).toList) :
    entry.2.name = entry.1 ∧ g.ReadsBelow targets entry.2 := by
  obtain ⟨hname, n, hn, hread⟩ := mem_rootsByName h
  exact ⟨hname, n, ((wf.dependencies ht).2 n).1 hn, hread⟩

theorem WellFormed.exists_mem_of_readsBelow (wf : g.WellFormed) (ht : ∀ e ∈ targets, e < g.size)
    {root : Root} (h : g.ReadsBelow targets root) :
    ∃ other, (root.name, other) ∈ (g.rootsByName (g.dependencies targets)).toList := by
  obtain ⟨n, hn, hread⟩ := h
  exact exists_mem_rootsByName (((wf.dependencies ht).2 n).2 hn) hread

theorem ToldApart.know_of_name_eq (hd : g.ToldApart targets) {root other : Root}
    (hroot : g.ReadsBelow targets root) (hother : g.ReadsBelow targets other)
    (hname : root.name = other.name) (h : arrays.Know root) : arrays.Know other := by
  intro i byte hbyte
  rw [Root.byte?, ← hd.contents_eq root other hroot hother hname] at hbyte
  exact hname ▸ h i byte hbyte

section Declarations

variable (wf : g.WellFormed) (ht : ∀ e ∈ targets, e < g.size)
include wf ht

theorem ToldApart.quotable_declarations (hd : g.ToldApart targets) :
    ∀ c ∈ declarations g targets, ∀ name ∈ c.arrays, Quotable name := by
  intro c hc name hname
  rcases List.mem_append.1 hc with hc | hc
  · obtain ⟨⟨_, root⟩, hroot, hc⟩ := List.mem_flatMap.1 hc
    have hsame : name = root.name := by
      rcases List.mem_cons.1 hc with rfl | hc
      · simpa [Command.arrays] using hname
      · obtain ⟨_, -, rfl⟩ := List.mem_map.1 hc
        simpa [Command.arrays, Term.arrays] using hname
    exact hsame ▸ hd.quotable root (wf.readsBelow_of_mem ht hroot).2
  · obtain ⟨e, he, rfl⟩ := List.mem_map.1 hc
    obtain ⟨root, hread, rfl⟩ := arrays_term hname
    exact hd.quotable root ⟨e, ((wf.dependencies ht).2 e).1 he, hread⟩

/-- Declarations can be run, and what they define has the value of its node over any bytes that the
arrays agree with. Everything asserted holds exactly when the arrays have the known bytes. -/
theorem Declarable.runAll_declarations (hd : g.Declarable targets) (arrays : Arrays) (bytes : Bytes)
    (agree : (∀ root, g.ReadsBelow targets root → arrays.Know root) →
      ∀ root, g.ReadsBelow targets root → arrays.Agree bytes root) :
    ∃ s, ({} : State).runAll arrays (declarations g targets) = some s ∧
      (s.holds = true ↔ ∀ root, g.ReadsBelow targets root → arrays.Know root) ∧
      (∀ e, ¬ g.Below targets e → s.scope (nodeName e) = none) ∧
      ∀ e, g.Below targets e → (Term.definition e).Denotes bytes s (g.width e) (g.tree e) := by
  obtain ⟨ordered, below⟩ := wf.dependencies ht
  let roots := (g.rootsByName (g.dependencies targets)).toList.map Prod.snd
  have hroots : ∀ root ∈ roots, g.ReadsBelow targets root := by
    intro root hroot
    obtain ⟨entry, hentry, rfl⟩ := List.mem_map.1 hroot
    exact (wf.readsBelow_of_mem ht hentry).2
  have hread : ∀ root, g.ReadsBelow targets root → ∃ other ∈ roots, other.name = root.name := by
    intro root hroot
    obtain ⟨other, hother⟩ := wf.exists_mem_of_readsBelow ht hroot
    exact ⟨other, List.mem_map.2 ⟨_, hother, rfl⟩, (wf.readsBelow_of_mem ht hother).1⟩
  obtain ⟨s, hs, declared⟩ := State.runAll_declareRoots (s := {}) arrays
    (fun root hroot => hd.name_new root (hroots root hroot)) (fun _ _ => rfl)
    pairwise_rootsByName (fun root hroot => hd.length_le root (hroots root hroot))
  have hholds : s.holds = true ↔ ∀ root, g.ReadsBelow targets root → arrays.Know root := by
    rw [declared.holds_iff]
    constructor
    · intro h root hroot
      obtain ⟨other, hother, hname⟩ := hread root hroot
      exact hd.know_of_name_eq (hroots other hother) hroot hname (h.2 other hother)
    · exact fun h => ⟨rfl, fun root hroot => h root (hroots root hroot)⟩
  have hnew : ∀ e, s.scope (nodeName e) = none :=
    fun e => declared.kept _ fun root hroot => hd.name_ne root (hroots root hroot) e
  have hreads : ∀ e ∈ g.dependencies targets, ∀ root, g.readRoot? e = some root →
      s.Reads arrays bytes root := by
    intro e he root hroot
    have hbelow : g.ReadsBelow targets root := ⟨e, (below e).1 he, hroot⟩
    obtain ⟨other, hother, hname⟩ := hread root hbelow
    exact ⟨hname ▸ declared.declared other hother, fun hs => agree (hholds.1 hs) root hbelow⟩
  obtain ⟨t, hrun, htholds, hkept, hnodes⟩ := wf.runAll_define ordered
    (fun e he => ((below e).1 he).lt_size wf ht) (fun e he => hd.width_pos e ((below e).1 he))
    (fun e _ => hnew e) hreads
  refine ⟨t, ?_, by rw [htholds, hholds], fun e he => ?_, fun e he => hnodes e ((below e).2 he)⟩
  · rw [declarations, ← List.flatMap_map (f := Prod.snd) (g := declareRoot),
      State.runAll_append hs, hrun]
  · refine (hkept _ fun n hn hname => he ?_).trans (hnew e)
    exact (below e).1 (nodeName_injective hname ▸ hn)

theorem runAll_declarations_eq_none {root : Root} (hroot : g.ReadsBelow targets root)
    (h : root.name ∈ theorySymbols) :
    ({} : State).runAll arrays (declarations g targets) = none := by
  obtain ⟨other, hother⟩ := wf.exists_mem_of_readsBelow ht hroot
  have hname : other.name = root.name := (wf.readsBelow_of_mem ht hother).1
  have hc : Command.declareArray root.name ∈ declareRoot other := hname ▸ List.mem_cons_self
  exact State.runAll_eq_none (List.mem_append_left _ (List.mem_flatMap.2 ⟨_, hother, hc⟩))
    fun _ => State.run_declareArray_of_mem_theorySymbols h

theorem ToldApart.runs_iff (hd : g.ToldApart targets) (arrays : Arrays) :
    (∃ s, run? arrays (script (declarations g targets)) = some s) ↔ g.Declarable targets := by
  rw [run?_script (hd.quotable_declarations wf ht)]
  constructor
  · rintro ⟨s, hs⟩
    refine ⟨hd, fun root hroot hname => ?_⟩
    rw [runAll_declarations_eq_none wf ht hroot hname] at hs
    cases hs
  · intro hnew
    obtain ⟨s, hs, -⟩ := hnew.runAll_declarations wf ht arrays arrays.bytes
      fun know root hroot => (know root hroot).agree_bytes
    exact ⟨s, hs⟩

/-- Declarations are faithful to evaluation. Their text is understood unless a root has the name of
a symbol of the logic. It defines the nodes below `targets` and no others, and everything it asserts
holds of the arrays exactly when they have the known bytes of the roots. Then each definition has
the value of its node over the bytes of the arrays, if the node has one. -/
theorem ToldApart.faithful (hd : g.ToldApart targets) (arrays : Arrays) :
    ((∃ s, run? arrays (script (declarations g targets)) = some s) ↔
      ∀ root, g.ReadsBelow targets root → root.name ∉ theorySymbols) ∧
    ∀ s, run? arrays (script (declarations g targets)) = some s →
      (s.holds = true ↔ ∀ root, g.ReadsBelow targets root → arrays.Know root) ∧
      (∀ e, (s.scope (nodeName e)).isSome ↔ g.Below targets e) ∧
      (s.holds = true → ∀ e, g.Below targets e → ∃ v : BitVec (g.width e),
        s.scope (nodeName e) = some (.bits v) ∧
          ∀ c, (g.tree e).eval arrays.bytes = .ok c → c = .ofBitVec v) := by
  have runs := hd.runs_iff wf ht arrays
  refine ⟨runs.trans ⟨fun h => h.name_new, fun h => ⟨hd, h⟩⟩, fun s hrun => ?_⟩
  obtain ⟨t, ht', hholds, hnone, hnodes⟩ := (runs.1 ⟨s, hrun⟩).runAll_declarations wf ht arrays
    arrays.bytes fun know root hroot => (know root hroot).agree_bytes
  obtain rfl : t = s := by
    rw [run?_script (hd.quotable_declarations wf ht), ht'] at hrun
    exact Option.some.inj hrun
  have hvalue : ∀ e, g.Below targets e → ∃ v : BitVec (g.width e),
      t.scope (nodeName e) = some (.bits v) ∧
      (t.holds = true → ∀ c, (g.tree e).eval arrays.bytes = .ok c → c = .ofBitVec v) := by
    intro e he
    obtain ⟨v, hv, hvalue⟩ := hnodes e he
    exact ⟨v, (Term.value_definition e).symm.trans hv, hvalue⟩
  refine ⟨hholds, fun e => ?_, fun h e he => ?_⟩
  · by_cases he : g.Below targets e
    · obtain ⟨v, hv, -⟩ := hvalue e he
      simp [hv, he]
    · simp [hnone e he, he]
  · obtain ⟨v, hv, hvalue⟩ := hvalue e he
    exact ⟨v, hv, hvalue h⟩

end Declarations

/-- A byte of a packet is found by a known byte, and added to it. -/
theorem faithful_of_indirect_read :
    let g : Graph :=
      { nodes := #[⟨.constant ⟨1, 8⟩, 8⟩, ⟨.read 0 0, 8⟩, ⟨.read 1 1, 8⟩, ⟨.binary .add 1 2, 8⟩],
        roots := #[.known "table" [7, 9], .symbolic "packet" 16] }
    let arrays : Arrays := fun name i =>
      if name = "table" then if i = 0 then 7 else 9 else i.setWidth 8 + 3
    g.WellFormed ∧ (∀ e ∈ [3], e < g.size) ∧ g.Declarable [3] ∧
      ∃ s, run? arrays (script (declarations g [3])) = some s ∧ s.holds = true ∧
        s.scope "e3" = some (.bits 21#8) := by
  intro g arrays
  have wf : g.WellFormed := by decide +kernel
  have ht : ∀ e ∈ [3], e < g.size := by decide
  have hd : g.Declarable [3] := (wf.declarable_iff ht).2 (by decide +kernel)
  obtain ⟨runs_iff, hall⟩ := ToldApart.faithful wf ht hd.toToldApart arrays
  obtain ⟨s, hs⟩ := runs_iff.2 hd.name_new
  obtain ⟨hholds, -, hvalue⟩ := hall s hs
  have holds : s.holds = true := by
    have hroots : (g.dependencies [3]).filterMap g.readRoot? =
        [.known "table" [7, 9], .symbolic "packet" 16] := by decide +kernel
    refine hholds.2 fun root hroot i byte hbyte => ?_
    rw [wf.readsBelow_iff ht, hroots] at hroot
    rcases List.mem_pair.1 hroot with rfl | rfl
    · match i with
      | 0 | 1 =>
        cases hbyte
        rfl
      | i + 2 => cases hbyte
    · cases hbyte
  obtain ⟨v, hv, hc⟩ := hvalue holds 3 (.of_mem (by simp))
  have heval : (g.tree 3).eval arrays.bytes = .ok ⟨21, 8⟩ := by decide +kernel
  have hv21 : v = 21#8 := BitVec.eq_of_toNat_eq (congrArg Constant.value (hc _ heval)).symm
  exact ⟨wf, ht, hd, s, hs, holds, hv21 ▸ hv⟩

end Graph

end BitvectorCode
