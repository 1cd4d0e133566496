import BitvectorCode.Proofs.SmtLib.Declarations
import BitvectorCode.Proofs.Solver.Evaluation
import BitvectorCode.SmtLib.Query

/-!
# Asking a solver whether expressions differ

A script gives one array to all roots of a name. If roots of one name have the same bytes, an
assignment of bytes under which two expressions differ becomes a model of the question whether they
do, so a solver that is right about the script never makes the oracle call them equal. Roots of one
name and different contents are taken for each other: the contents of the first stand for both.
-/

namespace BitvectorCode

open SmtLib

variable {g : Graph} {targets : List NodeId} {bytes : Bytes}

/-- Below `targets`, roots of one name have the same bytes, and they have them at indices of 32
bits. -/
structure Bytes.OfArrays (bytes : Bytes) (g : Graph) (targets : List NodeId) : Prop where
  name_eq : ∀ root other, g.ReadsBelow targets root → g.ReadsBelow targets other →
    root.name = other.name → bytes root = bytes other
  index_lt : ∀ root i, g.ReadsBelow targets root → (bytes root i).isSome → i < 2 ^ indexBits

/-- The arrays with the bytes of the roots in the table, known or given. -/
def Bytes.toArrays (bytes : Bytes) (table : Std.TreeMap String Root) : Arrays := fun name i =>
  match table[name]? with
  | some root => ((root.byte? i.toNat <|> bytes root i.toNat).getD 0).toBitVec
  | .none => 0

theorem Bytes.OfArrays.exists_agree (h : bytes.OfArrays g targets) (wf : g.WellFormed)
    (ht : ∀ e ∈ targets, e < g.size) (hd : g.Declarable targets) :
    ∃ arrays : Arrays, ∀ root, g.ReadsBelow targets root → arrays.Agree bytes root := by
  refine ⟨bytes.toArrays (g.rootsByName (g.dependencies targets)),
    fun root hroot i byte hbyte => ?_⟩
  obtain ⟨other, hmem⟩ := wf.exists_mem_of_readsBelow ht hroot
  obtain ⟨hname, hother⟩ := wf.readsBelow_of_mem ht hmem
  have hi : i < 2 ^ indexBits := by
    cases hknown : root.byte? i with
    | some known =>
      rw [Root.byte?_eq] at hknown
      exact Nat.lt_of_lt_of_le (List.getElem?_eq_some_iff.1 hknown).1 (hd.length_le root hroot)
    | none =>
      simp only [hknown] at hbyte
      exact h.index_lt root i hroot (Option.isSome_of_eq_some hbyte)
  have hsame : (other.byte? i <|> bytes other i) = some byte := by
    rw [Root.byte?, hd.contents_eq other root hother hroot hname,
      h.name_eq other root hother hroot hname]
    exact hbyte
  have htoNat : @BitVec.toNat 32 (.ofNat indexBits i) = i := Nat.mod_eq_of_lt hi
  simp only [toArrays, Std.TreeMap.mem_toList_iff_getElem?_eq_some.1 hmem,
    htoNat, hsame, Option.getD_some]

namespace Graph

variable {set : ConstraintSet} {l r : NodeId} {c d : Constant}

theorem Declarable.quotable_differenceQuery (wf : g.WellFormed)
    (ht : ∀ e ∈ set.constraints ++ [l, r], e < g.size)
    (hd : g.Declarable (set.constraints ++ [l, r])) :
    ∀ c ∈ differenceQuery g set l r, ∀ name ∈ c.arrays, Quotable name := by
  intro c hc name hname
  simp only [differenceQuery, preamble, List.mem_append, List.mem_cons, List.not_mem_nil, or_false,
    List.mem_map] at hc
  rcases hc with (((rfl | rfl) | hc) | ⟨e, -, rfl⟩) | rfl | rfl
  · simp [Command.arrays] at hname
  · simp [Command.arrays] at hname
  · exact hd.quotable_declarations wf ht c hc name hname
  · simp [Command.arrays, Term.arrays] at hname
  · simp [Command.arrays, Term.arrays] at hname
  · simp [Command.arrays] at hname

theorem runAll_differenceQuery {arrays : Arrays} {s : State} {w : Nat} {x y : BitVec w}
    (hs : ({} : State).runAll arrays (declarations g (set.constraints ++ [l, r])) = some s)
    (hset : ∀ e ∈ set.constraints, (Term.definition e).value s.scope =
      some (.bits (BitVec.ofBool true)))
    (hx : (Term.definition l).value s.scope = some (.bits x))
    (hy : (Term.definition r).value s.scope = some (.bits y)) :
    ({} : State).runAll arrays (differenceQuery g set l r) =
      some { s with holds := s.holds && CompareOp.ne.total x y } := by
  have hconstraints :
      s.runAll arrays (set.constraints.map fun e => .assert .eq (.definition e) (.bit true)) =
      some s := by
    have hrun :
        s.runAll arrays (set.constraints.map fun e => .assert .eq (.definition e) (.bit true)) =
        some { s with holds := s.holds && set.constraints.all fun _ => true } :=
      State.runAll_assert fun e he =>
        ⟨1, .ofBool true, .ofBool true, hset e he, Term.value_bit true, rfl⟩
    have hall : set.constraints.all (fun _ => true) = true := List.all_eq_true.2 fun _ _ => rfl
    rwa [hall, Bool.and_true] at hrun
  rw [differenceQuery, preamble, List.append_assoc, List.append_assoc,
    State.runAll_append (t := {}) rfl, State.runAll_append hs, State.runAll_append hconstraints,
    State.runAll_cons (State.run_assert hx hy .ne)]
  rfl

/-- An assignment under which the constraints hold is a model of the question, if it can be one of
arrays and the expressions have different values. -/
theorem Declarable.satisfiable_differenceQuery (wf : g.WellFormed)
    (ht : ∀ e ∈ set.constraints ++ [l, r], e < g.size)
    (hd : g.Declarable (set.constraints ++ [l, r]))
    (hbytes : bytes.OfArrays g (set.constraints ++ [l, r]))
    (hset : ∀ e ∈ set.constraints, (g.tree e).eval bytes = .ok (.ofBool true))
    (hw : g.width l = g.width r) (hl : g.eval l = .ok c) (hr : g.eval r = .ok d) (hne : c ≠ d) :
    Satisfiable (script (differenceQuery g set l r)) := by
  obtain ⟨arrays, agree⟩ := hbytes.exists_agree wf ht hd
  obtain ⟨s, hs, hholds, -, hnodes⟩ := hd.runAll_declarations wf ht arrays bytes fun _ => agree
  have holds : s.holds = true := hholds.2 fun root hroot => (agree root hroot).know
  have hl' : l < g.size := ht l (by simp)
  have hr' : r < g.size := ht r (by simp)
  have hlc := wf.eval_tree hl' hl bytes
  have hrd := wf.eval_tree hr' hr bytes
  have hcw := Tree.eval_fits (wf.wellSorted_tree hl') hlc
  have hdw := Tree.eval_fits (wf.wellSorted_tree hr') hrd
  rw [wf.width_tree hl'] at hcw
  rw [wf.width_tree hr', ← hw] at hdw
  obtain ⟨x, rfl⟩ := Constant.exists_ofBitVec hcw
  obtain ⟨y, rfl⟩ := Constant.exists_ofBitVec hdw
  have hxy : CompareOp.ne.total x y = true := bne_iff_ne.2 fun h => hne (congrArg _ h)
  have hx := (hnodes l (.of_mem (by simp))).value_eq holds hlc
  have hy := (hnodes r (.of_mem (by simp))).value_eq holds hrd
  have hconstraints : ∀ e ∈ set.constraints,
      (Term.definition e).value s.scope = some (.bits (BitVec.ofBool true)) := by
    intro e he
    refine (hnodes e (.of_mem (by simp [he]))).value_eq holds ?_
    rw [hset e he, Constant.ofBool_eq_ofBitVec]
  exact ⟨arrays, _, (run?_script (hd.quotable_differenceQuery wf ht)).trans
    (runAll_differenceQuery hs hconstraints hx hy), by simp [holds, hxy]⟩

end Graph

namespace SmtLib

variable {σ : Type}

def SaysUnsat (bytes : ByteArray) : Prop :=
  ∃ answer rest, answerText bytes = .ok answer ∧ verdict? answer = some (.unsat, rest)

/-- The solver never says of a satisfiable script that it has no model. -/
def SoundSolver (run : String → EStateM Error σ ByteArray) : Prop :=
  ∀ text, Satisfiable text → ∀ s bytes t, run text s = .ok bytes t → ¬ SaysUnsat bytes

theorem readEquality_eq_ok_true_iff {bytes : ByteArray} :
    (do readEquality (← answerText bytes)) = .ok true ↔ SaysUnsat bytes := by
  constructor
  · intro h
    obtain ⟨answer, hanswer, h⟩ := bind_eq_ok_iff.1 h
    unfold readEquality at h
    split at h
    · next rest hverdict => exact ⟨answer, rest, hanswer, hverdict⟩
    · cases h
    · cases h
  · rintro ⟨answer, rest, hanswer, hverdict⟩
    refine bind_eq_ok_iff.2 ⟨answer, hanswer, ?_⟩
    simp [readEquality, hverdict]

theorem exists_soundSolver {text : String} (h : ¬ Satisfiable text) :
    ∃ run : String → EStateM Error Unit ByteArray, SoundSolver run ∧
      ∃ bytes, run text () = .ok bytes () ∧ SaysUnsat bytes := by
  refine ⟨fun other => if other = text then pure "unsat\n".toUTF8 else throw .sort,
    ?_, "unsat\n".toUTF8, ?_, "unsat\n", [], rfl, rfl⟩
  · intro other hsat s bytes t hrun
    by_cases heq : other = text
    · exact absurd (heq ▸ hsat) h
    · simp only [if_neg heq] at hrun
      cases hrun
  · simp only [if_pos]
    rfl

end SmtLib

namespace Oracle

variable {σ : Type} {set : ConstraintSet} {l r : NodeId} {s : σ}

/-- Two nodes that the oracle calls equal are told apart by no model of the question. -/
theorem not_satisfiable_of_equal? {run : String → EStateM Error σ ByteArray}
    (hrun : SoundSolver run) (hlr : l ≠ r)
    (h : (Oracle.ofSolver run).equal? s g set l r = some true) :
    ¬ Satisfiable (script (differenceQuery g set l r)) := by
  intro hsat
  have never : Ensures (fun _ => True) ((Oracle.ofSolver run).alwaysEqual g set l r)
      (fun b _ => b ≠ true) fun _ _ => True := by
    simp only [ofSolver, if_neg hlr]
    split
    · exact .throw fun _ _ => trivial
    refine .bind (m := fun bytes _ => ¬ SaysUnsat bytes) (fun s _ => ?_) fun bytes => .ofExcept
      (fun b hb s hbytes htrue => hbytes (readEquality_eq_ok_true_iff.1 (htrue ▸ hb)))
      fun _ _ _ _ => trivial
    cases hs : run (script (differenceQuery g set l r)) s with
    | ok bytes t => exact hrun _ hsat s bytes t hs
    | error err t => trivial
  obtain ⟨t, ht⟩ := eq_ok_of_answer? h
  exact never.of_ok trivial ht rfl

theorem equal?_of_saysUnsat {run : String → EStateM Error σ ByteArray} (hw : g.width l = g.width r)
    (hlr : l ≠ r) {bytes : ByteArray} {t : σ}
    (hrun : run (script (differenceQuery g set l r)) s = .ok bytes t) (h : SaysUnsat bytes) :
    (Oracle.ofSolver run).equal? s g set l r = some true := by
  simp only [equal?, ofSolver, if_neg (not_not.2 hw), if_neg hlr]
  rw [bind_apply_of_ok hrun, readEquality_eq_ok_true_iff.2 h]
  rfl

/-- The oracle keeps apart what has different values. -/
theorem ofSolver_keeps_apart (wf : g.WellFormed) (ht : ∀ e ∈ set.constraints ++ [l, r], e < g.size)
    (hd : g.Declarable (set.constraints ++ [l, r]))
    (hbytes : bytes.OfArrays g (set.constraints ++ [l, r]))
    (hset : ∀ e ∈ set.constraints, (g.tree e).eval bytes = .ok (.ofBool true))
    (hw : g.width l = g.width r) {c d : Constant} (hl : g.eval l = .ok c) (hr : g.eval r = .ok d)
    (hne : c ≠ d) :
    Satisfiable (script (differenceQuery g set l r)) ∧
      ∀ (σ : Type) (run : String → EStateM Error σ ByteArray), SoundSolver run →
        ∀ s, (Oracle.ofSolver run).equal? s g set l r ≠ some true := by
  have hsat := hd.satisfiable_differenceQuery wf ht hbytes hset hw hl hr hne
  refine ⟨hsat, fun σ run hrun s h => not_satisfiable_of_equal? hrun ?_ h hsat⟩
  rintro rfl
  exact hne (Except.ok.inj (hl.symm.trans hr))

/-- Two bytes of one table are kept apart, under a constraint on a byte of a packet, also with a
solver that knows nothing. -/
theorem ofSolver_keeps_apart_table_bytes :
    let g : Graph :=
      { nodes := #[⟨.constant ⟨0, 8⟩, 8⟩, ⟨.constant ⟨1, 8⟩, 8⟩, ⟨.read 0 0, 8⟩, ⟨.read 0 1, 8⟩,
          ⟨.read 1 0, 8⟩, ⟨.compare .ult 4 1, 1⟩],
        roots := #[.known "table" [7, 9], .symbolic "packet" 16] }
    let set : ConstraintSet := ⟨[5]⟩
    let bytes : Bytes := fun root i => if root.name = "packet" ∧ i < 16 then some 0 else none
    let run : String → EStateM Error Unit ByteArray := fun _ => pure "unknown\n".toUTF8
    g.WellFormed ∧ (∀ e ∈ set.constraints ++ [2, 3], e < g.size) ∧
      g.Declarable (set.constraints ++ [2, 3]) ∧ bytes.OfArrays g (set.constraints ++ [2, 3]) ∧
      (∀ e ∈ set.constraints, (g.tree e).eval bytes = .ok (.ofBool true)) ∧ g.width 2 = g.width 3 ∧
      g.eval 2 = .ok ⟨7, 8⟩ ∧ g.eval 3 = .ok ⟨9, 8⟩ ∧ SoundSolver run ∧
      Satisfiable (script (differenceQuery g set 2 3)) ∧
      (Oracle.ofSolver run).equal? () g set 2 3 ≠ some true := by
  intro g set bytes run
  have wf : g.WellFormed := by decide +kernel
  have ht : ∀ e ∈ set.constraints ++ [2, 3], e < g.size := by decide
  have hd : g.Declarable (set.constraints ++ [2, 3]) := (wf.declarable_iff ht).2 (by decide +kernel)
  have hbytes : bytes.OfArrays g (set.constraints ++ [2, 3]) := by
    refine ⟨fun root other _ _ hname => ?_, fun root i _ hi => ?_⟩
    · funext i
      simp only [bytes, hname]
    · have hi : i < 16 := by
        by_contra hlt
        simp [bytes, hlt] at hi
      exact Nat.lt_trans hi (by decide)
  have hset : ∀ e ∈ set.constraints, (g.tree e).eval bytes = .ok (.ofBool true) := by decide +kernel
  have hl : g.eval 2 = .ok ⟨7, 8⟩ := by decide +kernel
  have hr : g.eval 3 = .ok ⟨9, 8⟩ := by decide +kernel
  have hsound : SoundSolver run := by
    rintro text - s bytes t hrun ⟨answer, rest, hanswer, hverdict⟩
    cases hrun
    have hunknown : answerText "unknown\n".toUTF8 = .ok "unknown\n" := rfl
    cases hunknown.symm.trans hanswer
    cases hverdict
  obtain ⟨hsat, hnot⟩ := ofSolver_keeps_apart wf ht hd hbytes hset rfl hl hr (by decide)
  exact ⟨wf, ht, hd, hbytes, hset, rfl, hl, hr, hsound, hsat, hnot Unit run hsound ()⟩

/-- Bytes of two tables of one name are not kept apart. Only the contents of the first are
asserted, and both bytes are read from its array, so a solver that is right makes the oracle call
them equal. -/
theorem not_satisfiable_of_two_tables :
    let g : Graph :=
      { nodes := #[⟨.constant ⟨0, 32⟩, 32⟩, ⟨.read 0 0, 8⟩, ⟨.constant ⟨0, 32⟩, 32⟩,
          ⟨.read 1 2, 8⟩],
        roots := #[.known "table" [1], .known "table" [2]] }
    g.WellFormed ∧ g.width 1 = g.width 3 ∧ g.eval 1 = .ok ⟨1, 8⟩ ∧ g.eval 3 = .ok ⟨2, 8⟩ ∧
      ¬ Satisfiable (script (differenceQuery g {} 1 3)) ∧
      ∃ run : String → EStateM Error Unit ByteArray, SoundSolver run ∧
        (Oracle.ofSolver run).equal? () g {} 1 3 = some true := by
  intro g
  -- the question is the same about a graph with the first table twice, where both bytes are 1
  let h : Graph := { g with roots := #[.known "table" [1], .known "table" [1]] }
  have hsame : differenceQuery g {} 1 3 = differenceQuery h {} 1 3 := by decide +kernel
  have wf : h.WellFormed := by decide +kernel
  have ht : ∀ e ∈ ({} : ConstraintSet).constraints ++ [1, 3], e < h.size := by decide
  have hd : h.Declarable (({} : ConstraintSet).constraints ++ [1, 3]) :=
    (wf.declarable_iff ht).2 (by decide +kernel)
  have hone : ∀ e ∈ [1, 3], h.eval e = .ok ⟨1, 8⟩ := by decide +kernel
  have hunsat : ¬ Satisfiable (script (differenceQuery g {} 1 3)) := by
    rintro ⟨arrays, s, hs, holds⟩
    obtain ⟨t, hrun, -, -, hnodes⟩ := hd.runAll_declarations wf ht arrays arrays.bytes
      fun know root hroot => (know root hroot).agree_bytes
    obtain ⟨x, hx, hvx⟩ := hnodes 1 (.of_mem (by simp))
    obtain ⟨y, hy, hvy⟩ := hnodes 3 (.of_mem (by simp))
    rw [hsame, run?_script (hd.quotable_differenceQuery wf ht),
      Graph.runAll_differenceQuery hrun (by simp) hx hy] at hs
    obtain ⟨htholds, hxy⟩ :=
      Bool.and_eq_true_iff.1 ((congrArg State.holds (Option.some.inj hs)).trans holds)
    have hxone := hvx htholds _ (wf.eval_tree (by decide) (hone 1 (by simp)) arrays.bytes)
    have hyone := hvy htholds _ (wf.eval_tree (by decide) (hone 3 (by simp)) arrays.bytes)
    exact bne_iff_ne.1 hxy (BitVec.eq_of_toNat_eq
      (congrArg Constant.value (hxone.symm.trans hyone)))
  obtain ⟨run, hsound, bytes, hrun, hbytes⟩ := exists_soundSolver hunsat
  exact ⟨by decide +kernel, rfl, by decide +kernel, by decide +kernel, hunsat, run, hsound,
    equal?_of_saysUnsat rfl (by decide) hrun hbytes⟩

end Oracle

end BitvectorCode
