import BitvectorCode.Eval.Graph
import BitvectorCode.Proofs.Eval.Operator

/-!
# Evaluation

The evaluation of a graph, with its table of answers, has the outcome of the plain evaluation of the
tree, and that one is the meaning of the tree as a bitvector. So a value has the width of its
expression and fits it, and nothing fails but reads of symbolic bytes, divisions by zero and signed
operations at a width that no 64-bit word holds.
-/

namespace BitvectorCode

open Constant

def Bytes.none : Bytes := fun _ _ => Option.none

/-- The plain evaluation of a well-sorted tree has the outcome that the operations on bitvectors
give it. -/
theorem Tree.eval_eq_map_meaning (bytes : Bytes) (t : Tree) (h : t.WellSorted) :
    t.eval bytes = (t.meaning bytes).map ofBitVec := by
  induction t with
  | constant c => exact congrArg _ (eq_ofBitVec h)
  | read root index ih =>
    simp only [eval, meaning, ih h]
    cases index.meaning bytes with
    | error err => rfl
    | ok i =>
      simp only [Except.map, bind, Except.bind]
      cases bytes.at? root (ofBitVec i) with
      | none => rfl
      | some byte => exact congrArg _ (ofNat_eq_ofBitVec (Nat.mod_eq_of_lt byte.toBitVec.isLt))
  | concat high low ihh ihl =>
    simp only [eval, meaning, ihh h.1, ihl h.2]
    cases high.meaning bytes with
    | error err => rfl
    | ok hv =>
      cases low.meaning bytes with
      | error err => rfl
      | ok lv => exact congrArg _ (concat_ofBitVec hv lv)
  | extract inner offset width ih =>
    simp only [eval, meaning, ih h.1]
    cases inner.meaning bytes with
    | error err => rfl
    | ok v => exact extract_ofBitVec v h.2.1
  | zeroExtend inner width ih =>
    simp only [eval, meaning, ih h.1]
    cases inner.meaning bytes with
    | error err => rfl
    | ok v => exact congrArg _ (zeroExtend_ofBitVec v)
  | signExtend inner width ih =>
    simp only [eval, meaning, ih h.1]
    cases inner.meaning bytes with
    | error err => rfl
    | ok v => exact congrArg _ (signExtend_ofBitVec v)
  | not inner ih =>
    simp only [eval, meaning, ih h]
    cases inner.meaning bytes with
    | error err => rfl
    | ok v => exact congrArg _ (complement_ofBitVec v)
  | binary op lhs rhs ihl ihr =>
    simp only [eval, meaning, ihl h.1, ihr h.2.1]
    cases lhs.meaning bytes with
    | error err => rfl
    | ok l =>
      cases rhs.meaning bytes with
      | error err => rfl
      | ok r =>
        change op.eval (ofBitVec l) (ofBitVec r) lhs.width = _
        rw [← ofBitVec_setWidth h.2.2.symm, op.eval_ofBitVec]
        rfl
  | compare op lhs rhs ihl ihr =>
    simp only [eval, meaning, ihl h.1, ihr h.2.1]
    cases lhs.meaning bytes with
    | error err => rfl
    | ok l =>
      cases rhs.meaning bytes with
      | error err => rfl
      | ok r =>
        change op.eval (ofBitVec l) (ofBitVec r) = Except.map _ (_ >>= _)
        rw [← ofBitVec_setWidth h.2.2.symm, op.eval_ofBitVec]
        change _ = Except.map _ (op.meaning l (r.setWidth lhs.width) >>= _)
        cases op.meaning l (r.setWidth lhs.width) with
        | error err => rfl
        | ok b => exact congrArg _ (ofBool_eq_ofBitVec b)
  | select cond ifTrue ifFalse ihc iht ihf =>
    obtain ⟨hc, ht, hf, hw, htf⟩ := h
    simp only [eval, meaning, ihc hc, iht ht, ihf hf]
    cases cond.meaning bytes with
    | error err => rfl
    | ok c =>
      have hone : (ofBitVec c).isOne = true ↔ c = 1#_ := by
        simp [isOne, ← BitVec.toNat_inj, hw]
      change (if (ofBitVec c).isOne = true then _ else _) = Except.map _ (if c = 1#_ then _ else _)
      by_cases h1 : c = 1#_
      · exact (if_pos (hone.2 h1)).trans (congrArg (Except.map ofBitVec) (if_pos h1).symm)
      · refine (if_neg (mt hone.1 h1)).trans
          (Eq.trans ?_ (congrArg (Except.map ofBitVec) (if_neg h1).symm))
        cases ifFalse.meaning bytes with
        | error err => rfl
        | ok v => exact congrArg _ (ofBitVec_setWidth htf.symm).symm

def Error.OfEvaluation : Error → Prop
  | symbolicRead _ _ | divisionByZero => True
  | tooWide w => ¬ SignedWidth w
  | _ => False

def BinaryOp.divides : BinaryOp → Bool
  | udiv | urem | sdiv | srem => true
  | _ => false

/-- The operators that refuse a width that no word holds. -/
def BinaryOp.dividesSigned : BinaryOp → Bool
  | sdiv | srem => true
  | _ => false

/-- An operator fails exactly at a zero divisor, and at a bad width when it divides signed numbers
by a divisor that is not zero. -/
theorem BinaryOp.meaning_eq_error_iff {op : BinaryOp} {w : Nat} {l r : BitVec w} {err : Error} :
    op.meaning l r = .error err ↔
      (op.divides ∧ r = 0#w ∧ err = .divisionByZero) ∨
        (op.dividesSigned ∧ r ≠ 0#w ∧ ¬ SignedWidth w ∧ err = .tooWide w) := by
  cases op with
  | add | sub | mul | and | or | xor | shl | lshr | ashr =>
    simp [meaning, divides, dividesSigned]
  | udiv | urem =>
    by_cases hr : r = 0#w <;> simp [meaning, divides, dividesSigned, divided, hr, eq_comm]
  | sdiv | srem =>
    by_cases hr : r = 0#w <;> by_cases hw : SignedWidth w <;>
      simp [meaning, divides, dividesSigned, divided, signedAt, hr, hw, bind, Except.bind, eq_comm]

theorem CompareOp.meaning_eq_error_iff {op : CompareOp} {w : Nat} {l r : BitVec w} {err : Error} :
    op.meaning l r = .error err ↔ op.isSigned ∧ ¬ SignedWidth w ∧ err = .tooWide w := by
  cases op with
  | eq | ne | ult | ule | ugt | uge => simp [meaning, isSigned]
  | slt | sle | sgt | sge =>
    by_cases hw : SignedWidth w <;> simp [meaning, isSigned, signedAt, hw, eq_comm]

theorem BinaryOp.meaning_error {op : BinaryOp} {w : Nat} {l r : BitVec w} {err : Error}
    (h : op.meaning l r = .error err) : err.OfEvaluation := by
  rcases meaning_eq_error_iff.1 h with ⟨-, -, rfl⟩ | ⟨-, -, hw, rfl⟩
  · trivial
  · exact hw

theorem CompareOp.meaning_error {op : CompareOp} {w : Nat} {l r : BitVec w} {err : Error}
    (h : op.meaning l r = .error err) : err.OfEvaluation := by
  obtain ⟨-, hw, rfl⟩ := meaning_eq_error_iff.1 h
  exact hw

/-- A tree fails only in a read of a byte without a value, a division by zero, or a signed operation
at a width that no word holds. -/
theorem Tree.meaning_error {bytes : Bytes} {t : Tree} {err : Error}
    (h : t.meaning bytes = .error err) : err.OfEvaluation := by
  induction t with
  | constant c => cases h
  | read root index ih =>
    rcases bind_eq_error_iff.1 h with h | ⟨i, -, h⟩
    · exact ih h
    · split at h <;> cases h
      trivial
  | extract inner _ _ ih | zeroExtend inner _ ih | signExtend inner _ ih | not inner ih =>
    rcases bind_eq_error_iff.1 h with h | ⟨_, -, h⟩
    · exact ih h
    · cases h
  | concat high low ihh ihl =>
    rcases bind_eq_error_iff.1 h with h | ⟨_, -, h⟩
    · exact ihh h
    · rcases bind_eq_error_iff.1 h with h | ⟨_, -, h⟩
      · exact ihl h
      · cases h
  | binary op lhs rhs ihl ihr =>
    rcases bind_eq_error_iff.1 h with h | ⟨_, -, h⟩
    · exact ihl h
    · rcases bind_eq_error_iff.1 h with h | ⟨_, -, h⟩
      · exact ihr h
      · exact op.meaning_error h
  | compare op lhs rhs ihl ihr =>
    rcases bind_eq_error_iff.1 h with h | ⟨_, -, h⟩
    · exact ihl h
    · rcases bind_eq_error_iff.1 h with h | ⟨_, -, h⟩
      · exact ihr h
      · rcases bind_eq_error_iff.1 h with h | ⟨_, -, h⟩
        · exact op.meaning_error h
        · cases h
  | select cond ifTrue ifFalse ihc iht ihf =>
    rcases bind_eq_error_iff.1 h with h | ⟨c, -, h⟩
    · exact ihc h
    · by_cases h1 : c = 1#_
      · exact iht ((if_pos h1).symm.trans h)
      · rcases bind_eq_error_iff.1 ((if_neg h1).symm.trans h) with h | ⟨_, -, h⟩
        · exact ihf h
        · cases h

theorem Tree.eval_fits {bytes : Bytes} {t : Tree} {c : Constant} (h : t.WellSorted)
    (hc : t.eval bytes = .ok c) : c.bits = t.width ∧ c.Valid := by
  rw [eval_eq_map_meaning bytes t h] at hc
  cases hm : t.meaning bytes with
  | error err => simp [hm, Except.map] at hc
  | ok v =>
    simp only [hm, Except.map, Except.ok.injEq] at hc
    subst hc
    exact ⟨rfl, ofBitVec_valid v⟩

theorem Tree.eval_error {bytes : Bytes} {t : Tree} {err : Error} (h : t.WellSorted)
    (he : t.eval bytes = .error err) : err.OfEvaluation := by
  rw [eval_eq_map_meaning bytes t h] at he
  cases hm : t.meaning bytes with
  | error err' =>
    simp only [hm, Except.map, Except.error.injEq] at he
    exact he ▸ meaning_error hm
  | ok v => simp [hm, Except.map] at he

namespace Tree

/-! A node has a value when its parts have, and the value is put together from theirs. -/

variable {s t : Tree} {bytes : Bytes} {c : Constant} {offset width : Nat}

theorem eval_read_constant {root : Root} {i : Constant}
    (h : (read root (.constant i)).eval bytes = .ok c) :
    ∃ byte, (root.byte? i.value <|> bytes root i.value) = some byte ∧ c = .ofNat byte.toNat 8 := by
  obtain ⟨i', hi, h⟩ := bind_eq_ok_iff.1 h
  cases hi
  split at h
  · next byte hbyte =>
    cases h
    obtain ⟨n, hn, hknown⟩ := Option.bind_eq_some_iff.1 hbyte
    rw [(Constant.word?_eq_some_iff.1 hn).2] at hknown
    exact ⟨byte, hknown, rfl⟩
  · cases h

theorem eval_concat_eq_ok_iff : (concat s t).eval bytes = .ok c ↔
    ∃ h l, s.eval bytes = .ok h ∧ t.eval bytes = .ok l ∧ c = h.concat l := by
  simp only [eval, bind_eq_ok_iff, Except.ok.injEq]
  constructor
  · intro h
    rcases h with ⟨h, hs, l, hl, rfl⟩
    exact ⟨h, l, hs, hl, rfl⟩
  · intro h
    rcases h with ⟨h, l, hs, hl, rfl⟩
    exact ⟨h, hs, l, hl, rfl⟩

theorem eval_extract_eq_ok_iff : (extract t offset width).eval bytes = .ok c ↔
    ∃ d, t.eval bytes = .ok d ∧ offset + width ≤ d.bits ∧ c = d.slice offset width := by
  simp only [eval, bind_eq_ok_iff, Constant.extract]
  constructor
  · intro h
    rcases h with ⟨d, hd, h⟩
    split at h
    · cases h
    · cases h
      exact ⟨d, hd, by omega, rfl⟩
  · intro h
    rcases h with ⟨d, hd, hin, rfl⟩
    exact ⟨d, hd, if_neg (by omega)⟩

theorem eval_binary_eq_ok_iff {op : BinaryOp} : (binary op s t).eval bytes = .ok c ↔
    ∃ l, s.eval bytes = .ok l ∧ ∃ r, t.eval bytes = .ok r ∧ op.eval l r s.width = .ok c := by
  simp only [eval, bind_eq_ok_iff]

theorem eval_compare_eq_ok_iff {op : CompareOp} : (compare op s t).eval bytes = .ok c ↔
    ∃ l, s.eval bytes = .ok l ∧ ∃ r, t.eval bytes = .ok r ∧ op.eval l r = .ok c := by
  simp only [eval, bind_eq_ok_iff]

theorem eval_select_eq_ok_iff {cond : Tree} : (select cond s t).eval bytes = .ok c ↔
    ∃ b, cond.eval bytes = .ok b ∧
      if b.isOne then s.eval bytes = .ok c else t.eval bytes = .ok c := by
  simp only [eval, bind_eq_ok_iff]
  constructor
  · intro h
    rcases h with ⟨b, hb, h⟩
    refine ⟨b, hb, ?_⟩
    split at h <;> simp_all
  · intro h
    rcases h with ⟨b, hb, h⟩
    refine ⟨b, hb, ?_⟩
    split at h <;> simp_all

theorem eval_of_none (bytes : Bytes) {t : Tree} {c : Constant} (h : t.eval .none = .ok c) :
    t.eval bytes = .ok c := by
  induction t generalizing c with
  | constant d => exact h
  | read root index ih =>
    obtain ⟨i, hi, h⟩ := bind_eq_ok_iff.1 h
    refine bind_eq_ok_iff.2 ⟨i, ih hi, ?_⟩
    split at h
    · next byte hbyte =>
      have hknown : bytes.at? root i = some byte := by
        obtain ⟨n, hn, hbyte⟩ := Option.bind_eq_some_iff.1 hbyte
        have hroot : root.byte? n = some byte := by simpa [Bytes.none] using hbyte
        simp [Bytes.at?, hn, hroot]
      rw [hknown]
      exact h
    · cases h
  | concat high low ihh ihl =>
    obtain ⟨l, r, hl, hr, hc⟩ := eval_concat_eq_ok_iff.1 h
    exact eval_concat_eq_ok_iff.2 ⟨l, r, ihh hl, ihl hr, hc⟩
  | extract inner offset width ih =>
    obtain ⟨d, hd, hin, hc⟩ := eval_extract_eq_ok_iff.1 h
    exact eval_extract_eq_ok_iff.2 ⟨d, ih hd, hin, hc⟩
  | zeroExtend inner width ih | signExtend inner width ih | not inner ih =>
    obtain ⟨d, hd, hc⟩ := bind_eq_ok_iff.1 h
    exact bind_eq_ok_iff.2 ⟨d, ih hd, hc⟩
  | binary op lhs rhs ihl ihr =>
    obtain ⟨l, hl, r, hr, hc⟩ := eval_binary_eq_ok_iff.1 h
    exact eval_binary_eq_ok_iff.2 ⟨l, ihl hl, r, ihr hr, hc⟩
  | compare op lhs rhs ihl ihr =>
    obtain ⟨l, hl, r, hr, hc⟩ := eval_compare_eq_ok_iff.1 h
    exact eval_compare_eq_ok_iff.2 ⟨l, ihl hl, r, ihr hr, hc⟩
  | select cond ifTrue ifFalse ihc iht ihf =>
    obtain ⟨b, hb, h⟩ := eval_select_eq_ok_iff.1 h
    refine eval_select_eq_ok_iff.2 ⟨b, ihc hb, ?_⟩
    split
    · next hone => exact iht ((if_pos hone).mp h)
    · next hzero => exact ihf ((if_neg hzero).mp h)

end Tree

namespace Graph

variable {g : Graph}

theorem bytes_none_at? (root : Root) (i : Constant) :
    Bytes.none.at? root i = i.word?.bind root.byte? := by
  unfold Bytes.at? Bytes.none
  cases i.word? <;> simp

/-- Evaluation with a table of right answers has the outcome of plain evaluation. The induction is
on the depth, which bounds the position of the node. -/
theorem evalWithin_computes (wf : g.WellFormed) {depth : Nat} {e : NodeId} (hd : e < depth)
    (he : e < g.size) :
    Computes (Remembered fun e c => (g.tree e).eval .none = .ok c) (g.evalWithin depth e)
      ((g.tree e).eval .none) := by
  induction depth generalizing e with
  | zero => exact absurd hd (Nat.not_lt_zero e)
  | succ depth ih =>
    have ih : ∀ child ∈ (g.expr e).children,
        Computes (Remembered fun e c => (g.tree e).eval .none = .ok c) (g.evalWithin depth child)
          ((g.tree child).eval .none) := by
      intro child hc
      have := wf.child_lt hc
      exact ih (by lia) (wf.child_lt_size he hc)
    apply Ensures.remember
    change Computes _ _ _
    have htree := wf.tree_eq he
    cases hx : g.expr e with
    | constant c =>
      rw [htree, hx]
      exact .pure
    | read r index =>
      rw [htree, hx]
      apply Computes.bind (ih index (by simp [hx, Expr.children]))
      intro i _
      rw [bytes_none_at?]
      cases i.word?.bind (g.root r).byte? with
      | none => exact .throw
      | some byte => exact .pure
    | concat high low =>
      rw [htree, hx]
      apply Computes.bind (ih high (by simp [hx, Expr.children]))
      intro h _
      exact .bind (ih low (by simp [hx, Expr.children])) fun l _ => .pure
    | extract inner offset width =>
      rw [htree, hx]
      exact .bind (ih inner (by simp [hx, Expr.children])) fun c _ => .ofExcept
    | zeroExtend inner =>
      rw [htree, hx]
      exact .bind (ih inner (by simp [hx, Expr.children])) fun c _ => .pure
    | signExtend inner =>
      rw [htree, hx]
      exact .bind (ih inner (by simp [hx, Expr.children])) fun c _ => .pure
    | not inner =>
      have hw : (g.tree inner).width = g.width e := by
        have hs := wf.sortRule he
        rw [hx] at hs
        rw [wf.width_tree (wf.child_lt_size he (by simp [hx, Expr.children]))]
        exact hs.symm
      rw [htree, hx]
      apply Computes.bind (ih inner (by simp [hx, Expr.children]))
      intro c _
      rw [hw]
      exact .pure
    | binary op lhs rhs =>
      have hw : (g.tree lhs).width = g.width e := by
        have hs := wf.sortRule he
        rw [hx] at hs
        rw [wf.width_tree (wf.child_lt_size he (by simp [hx, Expr.children]))]
        exact hs.2.symm
      rw [htree, hx]
      apply Computes.bind (ih lhs (by simp [hx, Expr.children]))
      intro l _
      apply Computes.bind (ih rhs (by simp [hx, Expr.children]))
      intro r _
      rw [hw]
      exact .ofExcept
    | compare op lhs rhs =>
      rw [htree, hx]
      apply Computes.bind (ih lhs (by simp [hx, Expr.children]))
      intro l _
      exact .bind (ih rhs (by simp [hx, Expr.children])) fun r _ => .ofExcept
    | select cond ifTrue ifFalse =>
      rw [htree, hx]
      apply Computes.bind (ih cond (by simp [hx, Expr.children]))
      intro c _
      cases c.isOne with
      | true => exact ih ifTrue (by simp [hx, Expr.children])
      | false => exact ih ifFalse (by simp [hx, Expr.children])

/-- Evaluation is plain evaluation of the tree. -/
theorem eval_eq_tree (wf : g.WellFormed) {e : NodeId} (he : e < g.size) :
    g.eval e = (g.tree e).eval .none := by
  have h := evalWithin_computes wf he he ∅ remembered_empty
  unfold eval
  cases hx : g.evalWithin g.size e ∅ with
  | ok c answers =>
    rw [EStateM.run, hx]
    rw [hx] at h
    exact h.1.symm
  | error err answers =>
    rw [EStateM.run, hx]
    rw [hx] at h
    exact h.1.symm

/-- Evaluation has the outcome that the operations on bitvectors give the tree: a value has the
width of its expression and fits it, and a failure is a read of a symbolic byte, a division by zero
or a signed operation at a width that no word holds. -/
theorem eval_eq_meaning (wf : g.WellFormed) {e : NodeId} (he : e < g.size) :
    g.eval e = ((g.tree e).meaning .none).map ofBitVec ∧
      (∀ c, g.eval e = .ok c → c.bits = g.width e ∧ c.value < 2 ^ c.bits) ∧
      ∀ err, g.eval e = .error err →
        (∃ root index, err = .symbolicRead root index) ∨ err = .divisionByZero ∨
          ∃ w, (w = 0 ∨ 64 < w) ∧ err = .tooWide w := by
  have sorted := wf.wellSorted_tree he
  rw [eval_eq_tree wf he]
  refine ⟨Tree.eval_eq_map_meaning .none _ sorted, fun c hc => ?_, fun err herr => ?_⟩
  · obtain ⟨hbits, hvalid⟩ := Tree.eval_fits sorted hc
    exact ⟨hbits.trans (wf.width_tree he), hvalid⟩
  · have := Tree.eval_error sorted herr
    cases err <;> simp_all [Error.OfEvaluation, SignedWidth]
    omega

/-- The least number of 64 bits divided by minus one is itself. -/
theorem eval_least_by_minus_one :
    let g : Graph := { nodes := #[⟨.constant ⟨2 ^ 63, 64⟩, 64⟩, ⟨.constant ⟨2 ^ 64 - 1, 64⟩, 64⟩,
      ⟨.binary .sdiv 0 1, 64⟩] }
    g.WellFormed ∧ 2 < g.size ∧ g.eval 2 = .ok ⟨2 ^ 63, 64⟩ ∧
      g.eval 2 = ((g.tree 2).meaning .none).map ofBitVec := by
  intro g
  have wf : g.WellFormed := by decide +kernel
  have lt : 2 < g.size := by decide
  exact ⟨wf, lt, by decide +kernel, (eval_eq_meaning wf lt).1⟩

end Graph

end BitvectorCode
