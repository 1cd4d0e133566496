import BitvectorCode.Analysis.Shape
import BitvectorCode.Proofs.Eval.Evaluation

/-!
# Truth values

An expression is seen to be a truth value when it is one bit wide or is made of truth values by
extensions, complements and bitwise operators. That it is 0 or 1 is passed on by every one of these
but two: a bit that is extended with its sign fills all bits, and so does the complement of more
than one bit. Where neither of them shows, the value is 0 or 1.
-/

namespace BitvectorCode

namespace Constant

variable {c d : Constant} {width : Nat}

theorem lt_two_of_bits (hbits : c.bits = 1) (hc : c.Valid) : c.value < 2 := by
  have lt : c.value < 2 ^ c.bits := hc
  rwa [hbits] at lt

theorem ofNat_lt_two {value : Nat} (h : value < 2) : (ofNat value width).value < 2 := by
  rw [value_ofNat]
  exact Nat.lt_of_le_of_lt (Nat.mod_le _ _) h

theorem zeroExtend_lt_two (h : c.value < 2) : (c.zeroExtend width).value < 2 := ofNat_lt_two h

theorem signExtend_lt_two (hbits : c.bits ≠ 1) (h : c.value < 2) :
    (c.signExtend width).value < 2 := by
  have sign : c.isNegative = false := by
    unfold isNegative
    by_cases hb : c.bits = 0
    · simp [hb]
    · have small : c.value < 2 ^ (c.bits - 1) :=
        Nat.lt_of_lt_of_le h (Nat.le_self_pow (by omega) 2)
      simp [Nat.testBit_lt_two_pow small]
  rw [signExtend, sign]
  exact ofNat_lt_two h

theorem two_le_complement {value : Nat} (hwide : 1 < width) (h : value < 2) :
    2 ≤ (ofNat (value ^^^ ones width) width).value := by
  have bit : (ofNat (value ^^^ ones width) width).value.testBit 1 = true := by
    have clear : value.testBit 1 = false := Nat.testBit_lt_two_pow h
    simp [testBit_ofNat, testBit_ones, clear, hwide]
  exact Nat.ge_two_pow_of_testBit bit

theorem value_signExtend_bit (hbits : c.bits = 1) (hc : c.Valid) :
    (c.signExtend width).value = 0 ∨ (c.signExtend width).value = ones width := by
  rw [eq_ofBool hbits hc]
  cases c.isZero with
  | true => exact .inl (by simp [signExtend, isNegative, ofBool, ofNat, lowBits_eq_mod])
  | false =>
    refine .inr (Nat.eq_of_testBit_eq fun i => ?_)
    rw [show ofBool (!false) = ⟨ones 1, 1⟩ from rfl, signExtend]
    have negative : isNegative ⟨ones 1, 1⟩ = true := rfl
    by_cases hw : 1 < width
    · rw [if_pos (by simpa [negative] using hw), testBit_ofNat, Nat.testBit_or,
        Nat.testBit_xor, testBit_ones, testBit_ones]
      grind
    · rw [if_neg (by simpa [negative] using hw), testBit_ofNat, testBit_ones, testBit_ones]
      grind

end Constant

namespace Tree

/-- One bit wide, or made by extensions, complements and bitwise operators from such. -/
def isBool : Tree → Bool
  | zeroExtend inner width | signExtend inner width => width == 1 || inner.isBool
  | not inner => inner.width == 1 || inner.isBool
  | binary .and lhs rhs | binary .or lhs rhs | binary .xor lhs rhs =>
    lhs.width == 1 || (lhs.isBool && rhs.isBool)
  | t => t.width == 1

/-- A bit that is extended with its sign, or a complement of more bits than one, shows in the value.
An operator shows what an operand does, except that of a conjunction both have to. -/
def spills : Tree → Bool
  | zeroExtend inner width => width != 1 && inner.spills
  | signExtend inner width => width != 1 && (inner.width == 1 || inner.spills)
  | not inner => inner.width != 1
  | binary .and lhs rhs => lhs.width != 1 && (lhs.spills && rhs.spills)
  | binary .or lhs rhs | binary .xor lhs rhs => lhs.width != 1 && (lhs.spills || rhs.spills)
  | _ => false

variable {t : Tree} {bytes : Bytes} {c : Constant}

theorem isBool_of_width (h : t.width = 1) : t.isBool = true := by
  cases t with
  | binary op lhs rhs => cases op <;> simp_all [isBool, width]
  | _ => simp_all [isBool, width]

theorem value_lt_two_of_width (ht : t.WellSorted) (hw : t.width = 1) (hc : t.eval bytes = .ok c) :
    c.value < 2 := by
  obtain ⟨hbits, hvalid⟩ := eval_fits ht hc
  exact Constant.lt_two_of_bits (hbits.trans hw) hvalid

theorem value_lt_two (ht : t.WellSorted) (hb : t.isBool = true) (hs : t.spills = false)
    (hc : t.eval bytes = .ok c) : c.value < 2 := by
  induction t generalizing c with
  | zeroExtend inner width ih =>
    by_cases hw : width = 1
    · exact value_lt_two_of_width ht hw hc
    · obtain ⟨d, hd, hc⟩ := bind_eq_ok_iff.1 hc
      cases hc
      have shows : inner.spills = false := by simpa [spills, hw] using hs
      exact Constant.zeroExtend_lt_two (ih ht.1 (by simpa [isBool, hw] using hb) shows hd)
  | signExtend inner width ih =>
    by_cases hw : width = 1
    · exact value_lt_two_of_width ht hw hc
    · obtain ⟨d, hd, hc⟩ := bind_eq_ok_iff.1 hc
      cases hc
      have shows : inner.width ≠ 1 ∧ inner.spills = false := by simpa [spills, hw] using hs
      have bits : d.bits ≠ 1 := (eval_fits ht.1 hd).1 ▸ shows.1
      exact Constant.signExtend_lt_two bits (ih ht.1 (by simpa [isBool, hw] using hb) shows.2 hd)
  | not inner ih =>
    have hw : inner.width = 1 := by simpa [spills] using hs
    exact value_lt_two_of_width ht hw hc
  | binary op lhs rhs ihl ihr =>
    by_cases hw : lhs.width = 1
    · exact value_lt_two_of_width ht hw hc
    · obtain ⟨l, hl, r, hr, hc⟩ := eval_binary_eq_ok_iff.1 hc
      cases op with
      | and =>
        cases hc
        have both : lhs.isBool = true ∧ rhs.isBool = true := by simpa [isBool, hw] using hb
        have shows : lhs.spills = true → rhs.spills = false := by simpa [spills, hw] using hs
        apply Constant.ofNat_lt_two
        cases hl' : lhs.spills with
        | false => exact Nat.lt_of_le_of_lt Nat.and_le_left (ihl ht.1 both.1 hl' hl)
        | true => exact Nat.lt_of_le_of_lt Nat.and_le_right (ihr ht.2.1 both.2 (shows hl') hr)
      | or =>
        cases hc
        have both : lhs.isBool = true ∧ rhs.isBool = true := by simpa [isBool, hw] using hb
        have shows : lhs.spills = false ∧ rhs.spills = false := by simpa [spills, hw] using hs
        exact Constant.ofNat_lt_two (Nat.or_lt_two_pow (n := 1) (ihl ht.1 both.1 shows.1 hl)
          (ihr ht.2.1 both.2 shows.2 hr))
      | xor =>
        cases hc
        have both : lhs.isBool = true ∧ rhs.isBool = true := by simpa [isBool, hw] using hb
        have shows : lhs.spills = false ∧ rhs.spills = false := by simpa [spills, hw] using hs
        exact Constant.ofNat_lt_two (Nat.xor_lt_two_pow (n := 1) (ihl ht.1 both.1 shows.1 hl)
          (ihr ht.2.1 both.2 shows.2 hr))
      | _ => exact absurd (by simpa [isBool, width] using hb) hw
  | _ => exact value_lt_two_of_width ht (by simpa [isBool] using hb) hc

/-- A complement of more bits than one does show: where nothing shows below it, it is never 0 or
1. -/
theorem two_le_value_not (ht : t.WellSorted) (hw : 1 < t.width) (hb : t.isBool = true)
    (hs : t.spills = false) (hc : t.not.eval bytes = .ok c) : 2 ≤ c.value := by
  obtain ⟨d, hd, hc⟩ := bind_eq_ok_iff.1 hc
  cases hc
  exact Constant.two_le_complement hw (value_lt_two ht hb hs hd)

theorem value_signExtend_bit {width : Nat} (ht : t.WellSorted) (hw : t.width = 1)
    (hc : (t.signExtend width).eval bytes = .ok c) : c.value = 0 ∨ c.value = ones width := by
  obtain ⟨d, hd, hc⟩ := bind_eq_ok_iff.1 hc
  cases hc
  obtain ⟨hbits, hvalid⟩ := eval_fits ht hd
  exact Constant.value_signExtend_bit (hbits.trans hw) hvalid

end Tree

namespace Graph

variable {g : Graph} {e : NodeId}

theorem isBoolWithin_returns (wf : g.WellFormed) {depth : Nat} (he : e < g.size) (hd : e < depth) :
    Returns (Remembered fun e b => b = (g.tree e).isBool) (g.isBoolWithin depth e)
      (g.tree e).isBool := by
  induction depth generalizing e with
  | zero => exact absurd hd (Nat.not_lt_zero e)
  | succ depth ih =>
    apply Returns.remember
    have below : ∀ child ∈ (g.expr e).children,
        Returns (Remembered fun e b => b = (g.tree e).isBool)
        (g.isBoolWithin depth child) (g.tree child).isBool := fun child hchild => by
      have := wf.child_lt hchild
      exact ih (wf.child_lt_size he hchild) (by lia)
    have width := wf.width_tree he
    by_cases hw : g.width e = 1
    · rw [if_pos hw, Tree.isBool_of_width (width.trans hw)]
      exact .pure
    rw [if_neg hw]
    have wide : ((g.tree e).width == 1) = false := beq_eq_false_iff_ne.2 (width.trans_ne hw)
    rw [wf.tree_eq he] at wide ⊢
    cases hx : g.expr e with
    | zeroExtend inner | signExtend inner | not inner =>
      have seen := below inner (by simp [hx, Expr.children])
      simp only [hx, Expr.unfold, Tree.width] at wide
      simpa only [Expr.unfold, Tree.isBool, wide, Bool.false_or] using seen
    | binary op lhs rhs =>
      have left := below lhs (by simp [hx, Expr.children])
      have right := below rhs (by simp [hx, Expr.children])
      simp only [hx, Expr.unfold, Tree.width] at wide
      cases op with
      | and | or | xor =>
        simp only [Expr.unfold, Tree.isBool, wide, Bool.false_or]
        apply left.bind
        cases (g.tree lhs).isBool with
        | true => exact right
        | false => exact .pure
      | _ =>
        simp only [Expr.unfold, Tree.isBool, Tree.width, wide]
        exact .pure
    | compare op lhs rhs =>
      rw [hx] at wide
      cases wide
    | _ =>
      rw [hx] at wide
      simp only [Expr.unfold, Tree.isBool] at wide ⊢
      rw [wide]
      exact .pure

theorem WellFormed.isBool_tree (wf : g.WellFormed) (he : e < g.size) :
    g.isBool e = (g.tree e).isBool :=
  (isBoolWithin_returns wf he he ∅ remembered_empty).1

/-- An expression that is seen to be a truth value has the value 0 or 1, unless a sign-extended bit
or a wide complement shows in it. -/
theorem value_eq_zero_or_one (wf : g.WellFormed) (he : e < g.size) (hb : g.isBool e = true)
    (hs : (g.tree e).spills = false) {bytes : Bytes} {c : Constant}
    (hc : (g.tree e).eval bytes = .ok c) :
    c.value = 0 ∨ c.value = 1 := by
  have truth : (g.tree e).isBool = true := (wf.isBool_tree he).symm.trans hb
  have := Tree.value_lt_two (wf.wellSorted_tree he) truth hs hc
  lia

/-- Two comparisons of a byte in 32 bits: the first reaches them through a sign that is masked, the
second through a complement in one bit. -/
theorem value_eq_zero_or_one_of_comparisons :
    let g : Graph := {
      nodes := #[⟨.constant ⟨0, 32⟩, 32⟩, ⟨.read 0 0, 8⟩, ⟨.constant ⟨5, 8⟩, 8⟩,
        ⟨.compare .eq 1 2, 1⟩, ⟨.zeroExtend 3, 16⟩, ⟨.signExtend 3, 16⟩, ⟨.binary .and 5 4, 16⟩,
        ⟨.signExtend 6, 32⟩, ⟨.compare .ult 1 2, 1⟩, ⟨.not 8, 1⟩, ⟨.zeroExtend 9, 32⟩,
        ⟨.binary .or 7 10, 32⟩]
      roots := #[.symbolic "packet" 1] }
    g.WellFormed ∧ 11 < g.size ∧ g.isBool 11 = true ∧ (g.tree 11).spills = false ∧
      (g.tree 11).eval (fun _ _ => some 4) = .ok ⟨0, 32⟩ ∧
        (g.tree 11).eval (fun _ _ => some 5) = .ok ⟨1, 32⟩ ∧
      ∀ bytes c, (g.tree 11).eval bytes = .ok c → c.value = 0 ∨ c.value = 1 := by
  intro g
  have wf : g.WellFormed := by decide +kernel
  have he : 11 < g.size := by decide
  have seen : g.isBool 11 = true := by decide +kernel
  have masked : (g.tree 11).spills = false := by decide +kernel
  exact ⟨wf, he, seen, masked, by decide +kernel, by decide +kernel, fun bytes c =>
    value_eq_zero_or_one wf he seen masked⟩

/-- A bit that is extended with its sign and a complement of eight bits are seen to be truth values
and are neither 0 nor 1, whatever the bytes are. -/
theorem isBool_of_spilled_bits :
    let g : Graph := {
      nodes := #[⟨.constant ⟨1, 1⟩, 1⟩, ⟨.signExtend 0, 8⟩, ⟨.zeroExtend 0, 8⟩, ⟨.not 2, 8⟩]
      roots := #[] }
    g.WellFormed ∧ 1 < g.size ∧ 3 < g.size ∧ g.isBool 1 = true ∧ g.isBool 3 = true ∧
      ∀ bytes : Bytes, (g.tree 1).eval bytes = .ok ⟨255, 8⟩ ∧
        (g.tree 3).eval bytes = .ok ⟨254, 8⟩ := by
  intro g
  have extended : g.tree 1 = .signExtend (.constant ⟨1, 1⟩) 8 := by decide +kernel
  have complement : g.tree 3 = .not (.zeroExtend (.constant ⟨1, 1⟩) 8) := by decide +kernel
  refine ⟨by decide +kernel, by decide, by decide, by decide +kernel, by decide +kernel,
    fun bytes => ⟨?_, ?_⟩⟩
  · rw [extended]
    rfl
  · rw [complement]
    rfl

end Graph

end BitvectorCode
