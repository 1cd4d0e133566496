import BitvectorCode.Analysis.Value
import BitvectorCode.Proofs.Lowering.Diff
import BitvectorCode.Proofs.Solver.Evaluation

/-!
# Constant values

The value an oracle offers is not trusted. It is put into the graph, and only if the oracle then
calls the expression always equal to it, it is the answer. So an answer rests on what the oracle
calls equal alone, and whatever is right about these pairs is right about the expression and its
constant.
-/

namespace BitvectorCode

open BitvectorCode.Graph

def Bytes.Total (bytes : Bytes) : Prop := ∀ root i, (bytes root i).isSome = true

/-- Expressions that the oracle calls always equal have the same outcome, a value or a failure, in
every model of the constraints that gives all bytes. -/
def Oracle.SoundInModels {σ : Type} (oracle : Oracle σ) : Prop :=
  ∀ (g : Graph) (constraints : ConstraintSet) (l r : NodeId) (s s' : σ), g.WellFormed →
    (∀ e ∈ constraints.constraints, e < g.size) → l < g.size → r < g.size →
    oracle.alwaysEqual g constraints l r s = .ok true s' →
    ∀ bytes : Bytes, bytes.Total → g.Models bytes constraints →
      (g.tree l).eval bytes = (g.tree r).eval bytes

namespace Oracle

variable {σ : Type} {oracle : Oracle σ} {constraints : ConstraintSet} {g : Graph}

theorem models_of_grows {h : Graph} {bytes : Bytes} (wf : g.WellFormed) (grown : g.Grows h)
    (hc : ∀ e ∈ constraints.constraints, e < g.size) (models : g.Models bytes constraints) :
    h.Models bytes constraints := by
  intro e he
  rw [grown.tree_eq wf (hc e he)]
  exact models e he

theorem Sound.confirms (sound : oracle.Sound) (wf : g.WellFormed)
    (hc : ∀ e ∈ constraints.constraints, e < g.size) :
    oracle.Confirms constraints g fun l r => ∀ bytes c d, g.Models bytes constraints →
      l.eval bytes = .ok c → r.eval bytes = .ok d → c = d :=
  fun h l r s s' grown hl hr answer bytes c d models =>
    sound h constraints l r s s' grown.wellFormed (fun e he => grown.lt_size (hc e he)) hl hr answer
      bytes c d (models_of_grows wf grown hc models)

theorem SoundInModels.confirms (sound : oracle.SoundInModels) (wf : g.WellFormed)
    (hc : ∀ e ∈ constraints.constraints, e < g.size) :
    oracle.Confirms constraints g fun l r => ∀ bytes : Bytes, bytes.Total →
      g.Models bytes constraints → l.eval bytes = r.eval bytes :=
  fun h l r s s' grown hl hr answer bytes total models =>
    sound h constraints l r s s' grown.wellFormed (fun e he => grown.lt_size (hc e he)) hl hr answer
      bytes total (models_of_grows wf grown hc models)

end Oracle

namespace Graph

variable {g : Graph} {e : NodeId}

theorem tree_push_constant {c : Constant} (grown : g.Grows (g.push ⟨.constant c, c.bits⟩)) :
    (g.push ⟨.constant c, c.bits⟩).tree g.size = .constant c :=
  grown.wellFormed.tree_of_node (lt_size_push _) (node_push _)

theorem ground_eq_ok_none_iff :
    g.ground e = .ok none ↔ ∃ name index, g.eval e = .error (.symbolicRead name index) := by
  unfold ground
  split
  · next hc => simp [hc]
  · next herr => simp [herr]
  · next err hread herr =>
    simp only [herr, reduceCtorEq, Except.error.injEq, false_iff]
    rintro ⟨name, index, rfl⟩
    exact hread name index rfl

theorem ground_eq_error_iff {err : Error} : g.ground e = .error err ↔
    g.eval e = .error err ∧ ∀ name index, err ≠ .symbolicRead name index := by
  unfold ground
  split
  · next hc => simp [hc]
  · next herr =>
    simp only [herr, reduceCtorEq, Except.error.injEq, false_iff, not_and]
    rintro rfl hread
    exact hread _ _ rfl
  · next err' hread herr =>
    simp only [herr, Except.error.injEq]
    constructor
    · rintro rfl
      exact ⟨rfl, hread⟩
    · exact And.left

end Graph

namespace Inquiry

variable {σ : Type} {oracle : Oracle σ} {constraints : ConstraintSet} {g : Graph} {e : NodeId}
variable {s t : Inquiry σ} {c : Constant} {err : Error}

/-- How the question for a constant value of `e` ends in the graph `g`, and the graph it leaves. A
constant is its own value. Otherwise the oracle may fail to offer a value or offer none, or the
value it offers is put into the graph, and it is asked whether the expression is always equal to
that. -/
inductive Finds (oracle : Oracle σ) (constraints : ConstraintSet) (g : Graph) (e : NodeId) :
    Except Error (Option Constant) → Graph → Prop
  | constant {c : Constant} : g.expr e = .constant c → Finds oracle constraints g e (.ok (some c)) g
  | refused {err : Error} {o o' : σ} : oracle.evaluate g constraints e o = .error err o' →
      Finds oracle constraints g e (.error err) g
  | silent {o o' : σ} : oracle.evaluate g constraints e o = .ok none o' →
      Finds oracle constraints g e (.ok none) g
  | confirmed {c : Constant} {o o' p p' : σ} : oracle.evaluate g constraints e o = .ok (some c) o' →
      oracle.alwaysEqual (g.push ⟨.constant c, c.bits⟩) constraints e g.size p = .ok true p' →
      Finds oracle constraints g e (.ok (some c)) (g.push ⟨.constant c, c.bits⟩)
  | denied {c : Constant} {o o' p p' : σ} : oracle.evaluate g constraints e o = .ok (some c) o' →
      oracle.alwaysEqual (g.push ⟨.constant c, c.bits⟩) constraints e g.size p = .ok false p' →
      Finds oracle constraints g e (.ok none) (g.push ⟨.constant c, c.bits⟩)
  | undecided {c : Constant} {err : Error} {o o' p p' : σ} :
      oracle.evaluate g constraints e o = .ok (some c) o' →
      oracle.alwaysEqual (g.push ⟨.constant c, c.bits⟩) constraints e g.size p = .error err p' →
      Finds oracle constraints g e (.error err) (g.push ⟨.constant c, c.bits⟩)

theorem constantValue_finds : Ensures (fun s : Inquiry σ => s.graph = g)
    (constantValue oracle constraints e)
    (fun answer t => Finds oracle constraints g e (.ok answer) t.graph)
    fun err t => Finds oracle constraints g e (.error err) t.graph := by
  apply Ensures.bind_get
  rintro ⟨g, o⟩ rfl
  dsimp only
  cases hx : g.expr e with
  | constant c =>
    rintro _ rfl
    exact .constant hx
  | _ =>
    refine ((ask_ensures _).start rfl (fun _ _ h => h) ?_).bind fun offered => ?_
    · rintro err ⟨g, o'⟩ ⟨rfl, p, p', refused⟩
      exact .refused refused
    · rintro ⟨g, o'⟩ ⟨rfl, p, p', answer⟩
      cases offered with
      | none => exact .silent answer
      | some c =>
        let candidate : Inquiry σ := ⟨g.push ⟨.constant c, c.bits⟩, o'⟩
        have built : build (Build.constant c) ⟨g, o'⟩ = .ok g.size candidate := rfl
        dsimp only
        rw [bind_apply_of_ok built]
        refine ((ask_ensures _).start rfl (fun _ _ h => h) ?_).bind (fun equal => ?_) candidate rfl
        · rintro err ⟨h, q⟩ ⟨rfl, q, q', undecided⟩
          exact .undecided answer undecided
        · rintro ⟨h, q⟩ ⟨rfl, q, q', called⟩
          cases equal with
          | false => exact .denied answer called
          | true => exact .confirmed answer called

/-- Every value that the oracle may offer fits the expression. -/
def Fitting (oracle : Oracle σ) (constraints : ConstraintSet) (g : Graph) (e : NodeId) : Prop :=
  ∀ o o' c, oracle.evaluate g constraints e o = .ok (some c) o' → c.Valid ∧ c.bits = g.width e

namespace Finds

variable {outcome : Except Error (Option Constant)} {h : Graph}

theorem grows (found : Finds oracle constraints g e outcome h) (wf : g.WellFormed)
    (fitting : Fitting oracle constraints g e) : g.Grows h := by
  cases found with
  | constant | refused | silent => exact wf.grows
  | confirmed offered | denied offered | undecided offered =>
    exact wf.grows_push_constant (fitting _ _ _ offered).1

theorem same {Same : Tree → Tree → Prop} (found : Finds oracle constraints g e (.ok (some c)) h)
    (wf : g.WellFormed) (he : e < g.size) (fitting : Fitting oracle constraints g e)
    (refl : ∀ t, Same t t) (confirms : oracle.Confirms constraints g Same) :
    Same (g.tree e) (.constant c) := by
  cases found with
  | constant hx => exact wf.tree_of_expr_constant he hx ▸ refl _
  | confirmed offered called =>
    have grown := wf.grows_push_constant (fitting _ _ _ offered).1
    have equal := confirms _ e g.size _ _ grown (grown.lt_size he) (lt_size_push _) called
    rwa [grown.tree_eq wf he, tree_push_constant grown] at equal

theorem fits (found : Finds oracle constraints g e (.ok (some c)) h) (wf : g.WellFormed)
    (he : e < g.size) (fitting : Fitting oracle constraints g e) :
    c.Valid ∧ c.bits = g.width e := by
  cases found with
  | constant hx =>
    have width := wf.width_tree he
    rw [wf.tree_of_expr_constant he hx] at width
    exact ⟨wf.constant_valid he hx, width⟩
  | confirmed offered => exact fitting _ _ _ offered

theorem eq_ground (found : Finds (Oracle.evaluation (σ := σ)) constraints g e outcome h)
    (wf : g.WellFormed) (he : e < g.size) : outcome = g.ground e := by
  have equal : ∀ c, g.ground e = .ok (some c) →
      (g.push ⟨.constant c, c.bits⟩).provablyEqual e g.size = .ok true := by
    intro c offered
    have value := ground_eq_ok_some_iff.1 offered
    rw [eval_eq_tree wf he] at value
    obtain ⟨hbits, hvalid⟩ := Tree.eval_fits (wf.wellSorted_tree he) value
    have grown := wf.grows_push_constant hvalid
    have there := grown.lt_size he
    have node := tree_push_constant grown
    refine (grown.wellFormed.provablyEqual_iff there (lt_size_push _)).2 (.inr ⟨?_, c, ?_, ?_⟩)
    · have width : (g.push ⟨.constant c, c.bits⟩).width g.size = c.bits :=
        congrArg Node.width (node_push _)
      rw [grown.width_eq he, width, hbits, wf.width_tree he]
    · rw [eval_eq_tree grown.wellFormed there, grown.tree_eq wf he, value]
    · rw [eval_eq_tree grown.wellFormed (lt_size_push _), node]
      rfl
  cases found with
  | constant hx =>
    refine (ground_eq_ok_some_iff.2 ?_).symm
    rw [eval_eq_tree wf he, wf.tree_of_expr_constant he hx]
    rfl
  | refused refused => exact (ofExcept_apply_eq_error_iff.1 refused).1.symm
  | silent silent => exact (ofExcept_apply_eq_ok_iff.1 silent).1.symm
  | confirmed offered => exact (ofExcept_apply_eq_ok_iff.1 offered).1.symm
  | denied offered denied =>
    have called := equal _ (ofExcept_apply_eq_ok_iff.1 offered).1
    cases called.symm.trans (ofExcept_apply_eq_ok_iff.1 denied).1
  | undecided offered undecided =>
    have called := equal _ (ofExcept_apply_eq_ok_iff.1 offered).1
    cases called.symm.trans (ofExcept_apply_eq_error_iff.1 undecided).1

end Finds

theorem signedConstant_of_le (hw : s.graph.width e ≤ 64) :
    signedConstant oracle constraints e s = (constantValue oracle constraints e >>= fun value =>
      value.elim (get >>= fun s => throw (.notConstant (s.graph.render e))) pure) s := by
  unfold signedConstant
  rw [get_bind_apply, if_neg (Nat.not_lt.2 hw)]
  refine congrArg (fun next => (constantValue oracle constraints e >>= next) s)
    (funext fun value => ?_)
  cases value <;> rfl

theorem signed_of_value (hw : SignedWidth (s.graph.width e))
    (fits : c.Valid ∧ c.bits = s.graph.width e)
    (run : constantValue oracle constraints e s = .ok (some c) t) :
    signedValue oracle constraints e s = .ok (BitVec.ofNat c.bits c.value).toInt t ∧
      isNegativeConstant oracle constraints e s =
        .ok (decide ((BitVec.ofNat c.bits c.value).toInt < 0)) t := by
  have constant : signedConstant oracle constraints e s = .ok c t := by
    rw [signedConstant_of_le hw.2, bind_apply_of_ok run]
    rfl
  obtain ⟨hvalid, hbits⟩ := fits
  have reading : c.toInt = .ok (BitVec.ofNat c.bits c.value).toInt := by
    rw [← hbits] at hw
    nth_rewrite 1 [Constant.eq_ofBitVec hvalid]
    rw [Constant.toInt_ofBitVec, signedAt, if_pos hw]
  have sign : c.isNegative = decide ((BitVec.ofNat c.bits c.value).toInt < 0) := by
    nth_rewrite 1 [Constant.eq_ofBitVec hvalid]
    rw [Constant.isNegative_ofBitVec, BitVec.msb_eq_toInt]
  constructor
  · exact (bind_apply_of_ok constant).trans (ofExcept_apply_eq_ok_iff.2 ⟨reading, rfl⟩)
  · rw [← sign]
    exact bind_apply_of_ok constant

def NoReading (oracle : Oracle σ) (constraints : ConstraintSet) (e : NodeId) (s : Inquiry σ)
    (err : Error) (t : Inquiry σ) : Prop :=
  signedValue oracle constraints e s = .error err t ∧
    isNegativeConstant oracle constraints e s = .error err t

theorem noReading_of_signedConstant (h : signedConstant oracle constraints e s = .error err t) :
    NoReading oracle constraints e s err t :=
  ⟨bind_apply_of_error h, bind_apply_of_error h⟩

theorem noReading_of_wide (hw : 64 < s.graph.width e) :
    NoReading oracle constraints e s (.tooWide (s.graph.width e)) s := by
  apply noReading_of_signedConstant
  unfold signedConstant
  rw [get_bind_apply]
  dsimp only
  rw [if_pos hw]
  rfl

theorem noReading_of_no_value (hw : s.graph.width e ≤ 64)
    (run : constantValue oracle constraints e s = .ok none t) :
    NoReading oracle constraints e s (.notConstant (t.graph.render e)) t := by
  apply noReading_of_signedConstant
  rw [signedConstant_of_le hw, bind_apply_of_ok run]
  rfl

theorem noReading_of_error (hw : s.graph.width e ≤ 64)
    (run : constantValue oracle constraints e s = .error err t) :
    NoReading oracle constraints e s err t := by
  apply noReading_of_signedConstant
  rw [signedConstant_of_le hw, bind_apply_of_error run]

theorem constantValue_evaluation (wf : g.WellFormed) (he : e < g.size) :
    Ensures (fun s : Inquiry σ => s.graph = g) (constantValue .evaluation constraints e)
      (fun answer _ => g.ground e = .ok answer) fun err _ => g.ground e = .error err :=
  constantValue_finds.weaken (fun _ h => h) (fun _ _ found => (found.eq_ground wf he).symm)
    fun _ _ found => (found.eq_ground wf he).symm

/-- A constant value is right, whatever value the oracle offered, as long as the oracle is right
where it calls expressions equal. If what it calls equal has no two values in a model, the
expression has no other value in a model; if that has one outcome in every model, the expression has
this value in each. The value has a reading as a two's complement number at 1 to 64 bits, and the
reading is negative when the answer says so. Without a value, and past 64 bits, both readings fail.
With the oracle that evaluates, the question ends as evaluation does, where a byte without a value
is no answer. -/
theorem constantValue_in_models (wf : s.graph.WellFormed) (he : e < s.graph.size)
    (hc : ∀ k ∈ constraints.constraints, k < s.graph.size)
    (fitting : Fitting oracle constraints s.graph e) :
    (∀ c t, constantValue oracle constraints e s = .ok (some c) t →
      s.graph.Grows t.graph ∧ c.Valid ∧ c.bits = s.graph.width e ∧
      (oracle.Sound → ∀ bytes d, s.graph.Models bytes constraints →
        (s.graph.tree e).eval bytes = .ok d → d = c) ∧
      (oracle.SoundInModels → ∀ bytes : Bytes, bytes.Total → s.graph.Models bytes constraints →
        (s.graph.tree e).eval bytes = .ok c) ∧
      (SignedWidth (s.graph.width e) →
        signedValue oracle constraints e s = .ok (BitVec.ofNat c.bits c.value).toInt t ∧
        isNegativeConstant oracle constraints e s =
          .ok (decide ((BitVec.ofNat c.bits c.value).toInt < 0)) t)) ∧
    (64 < s.graph.width e → NoReading oracle constraints e s (.tooWide (s.graph.width e)) s) ∧
    (s.graph.width e ≤ 64 →
      (∀ t, constantValue oracle constraints e s = .ok none t →
        NoReading oracle constraints e s (.notConstant (t.graph.render e)) t) ∧
      ∀ err t, constantValue oracle constraints e s = .error err t →
        NoReading oracle constraints e s err t) ∧
    (∀ c, (∃ t, constantValue .evaluation constraints e s = .ok (some c) t) ↔
      s.graph.eval e = .ok c) ∧
    ((∃ t, constantValue .evaluation constraints e s = .ok none t) ↔
      ∃ name index, s.graph.eval e = .error (.symbolicRead name index)) ∧
    ∀ err, (∃ t, constantValue .evaluation constraints e s = .error err t) ↔
      s.graph.eval e = .error err ∧ ∀ name index, err ≠ .symbolicRead name index := by
  have evaluated : Ensures (fun t : Inquiry σ => t.graph = s.graph)
      (constantValue .evaluation constraints e) (fun answer _ => s.graph.ground e = .ok answer)
      fun err _ => s.graph.ground e = .error err := constantValue_evaluation wf he
  refine ⟨fun c t run => ?_, noReading_of_wide, fun hw => ⟨fun t => noReading_of_no_value hw,
    fun err t => noReading_of_error hw⟩, fun c => ?_, ?_, fun err => ?_⟩
  · have found := constantValue_finds.of_ok rfl run
    have fits := found.fits wf he fitting
    refine ⟨found.grows wf fitting, fits.1, fits.2, fun sound => ?_, fun sound => ?_,
      fun hw => signed_of_value hw fits run⟩
    · have confirms := sound.confirms wf hc
      exact fun bytes d models hd =>
        found.same wf he fitting (fun _ _ _ _ _ h h' => Except.ok.inj (h.symm.trans h')) confirms
          bytes d c models hd rfl
    · exact found.same wf he fitting (fun _ _ _ _ => rfl) (sound.confirms wf hc)
  · exact (evaluated.exists_ok_iff rfl).trans ground_eq_ok_some_iff
  · exact (evaluated.exists_ok_iff rfl).trans ground_eq_ok_none_iff
  · exact (evaluated.exists_error_iff rfl).trans ground_eq_error_iff

end Inquiry

/-- The oracle that goes by its constraints: it calls an expression equal to what a constraint
compares it with, and offers one and the same value for every expression. It counts the
questions. -/
def Oracle.assuming (offer : Constant) : Oracle Nat where
  alwaysEqual g constraints l r := fun n =>
    .ok (constraints.constraints.any fun k => decide (∃ other ∈ (g.expr k).children,
      g.expr k = .compare .eq l other ∧ g.sameStructure other r = true)) (n + 1)
  evaluate _ _ _ := fun n => .ok (some offer) (n + 1)

theorem Oracle.assuming_sound (offer : Constant) : (Oracle.assuming offer).SoundInModels := by
  intro g constraints l r n n' wf hc hl hr answer bytes _ models
  obtain ⟨k, hk, compares⟩ := List.any_eq_true.1 (EStateM.Result.ok.inj answer).1
  obtain ⟨other, hother, hx, same⟩ := of_decide_eq_true compares
  have tree : g.tree k = .compare .eq (g.tree l) (g.tree other) := by
    rw [wf.tree_eq (hc k hk), hx]
    rfl
  have sorted := wf.wellSorted_tree (hc k hk)
  have holds := models k hk
  rw [tree] at sorted holds
  obtain ⟨hsl, hso, hw⟩ := sorted
  obtain ⟨c, hcl, d, hdo, equal⟩ := Tree.eval_compare_eq_ok_iff.1 holds
  have value : c.value = d.value := by
    by_contra hne
    have one : Constant.ofBool (c.value == d.value) = ⟨1, 1⟩ := Except.ok.inj equal
    rw [beq_false_of_ne hne] at one
    exact absurd one (by decide)
  have bits : c.bits = d.bits := by
    rw [(Tree.eval_fits hsl hcl).1, (Tree.eval_fits hso hdo).1, hw]
  have tree' : g.tree other = g.tree r :=
    (wf.sameStructure_iff (wf.child_lt_size (hc k hk) hother) hr).1 same
  rw [hcl, ← tree', hdo]
  cases c
  cases d
  simp_all

/-- A byte of a packet is what a constraint says it is, which is 254 or, with its sign, -2. Without
the constraint it has no value. -/
theorem Inquiry.constantValue_of_constraint :
    let g : Graph := {
      nodes := #[⟨.constant ⟨0, 32⟩, 32⟩, ⟨.read 0 0, 8⟩, ⟨.constant ⟨254, 8⟩, 8⟩,
        ⟨.compare .eq 1 2, 1⟩]
      roots := #[.symbolic "packet" 8] }
    let oracle : Oracle Nat := .assuming ⟨254, 8⟩
    let constraints : ConstraintSet := ⟨[3]⟩
    let s : Inquiry Nat := ⟨g, 0⟩
    g.WellFormed ∧ 1 < g.size ∧ (∀ k ∈ constraints.constraints, k < g.size) ∧
      Fitting oracle constraints g 1 ∧ oracle.SoundInModels ∧ SignedWidth (g.width 1) ∧
      (∃ bytes : Bytes, bytes.Total ∧ g.Models bytes constraints) ∧
      (∃ t, constantValue oracle constraints 1 s = .ok (some ⟨254, 8⟩) t ∧
        (∀ bytes : Bytes, bytes.Total → g.Models bytes constraints →
          (g.tree 1).eval bytes = .ok ⟨254, 8⟩) ∧
        signedValue oracle constraints 1 s = .ok (-2) t ∧
        isNegativeConstant oracle constraints 1 s = .ok true t) ∧
      ∃ t, constantValue .evaluation constraints 1 s = .ok none t := by
  intro g oracle constraints s
  have wf : g.WellFormed := by decide +kernel
  have he : 1 < g.size := by decide
  have hc : ∀ k ∈ constraints.constraints, k < g.size := by decide
  have hw : SignedWidth (g.width 1) := by decide
  have fitting : Fitting oracle constraints g 1 := by
    intro o o' c offered
    cases offered
    exact ⟨by decide, rfl⟩
  have sound := Oracle.assuming_sound ⟨254, 8⟩
  have model : ∃ bytes : Bytes, bytes.Total ∧ g.Models bytes constraints := by
    refine ⟨fun _ _ => some 254, fun _ _ => rfl, fun e he => ?_⟩
    rw [List.mem_singleton.1 he]
    decide +kernel
  obtain ⟨value, -, -, -, unknown, -⟩ := constantValue_in_models (s := s) wf he hc fitting
  have answer : answer? (constantValue oracle constraints 1 s) = some (some ⟨254, 8⟩) := by
    decide +kernel
  obtain ⟨t, run⟩ := eq_ok_of_answer? answer
  obtain ⟨-, -, -, -, models, readings⟩ := value _ _ run
  obtain ⟨number, sign⟩ := readings hw
  refine ⟨wf, he, hc, fitting, sound, hw, model, ⟨t, run, models sound, number, sign⟩, unknown.2 ?_⟩
  exact ⟨"packet", ⟨0, 32⟩, by decide +kernel⟩

end BitvectorCode
