import BitvectorCode.Proofs.SmtLib.Terms

/-!
# Nodes as terms

Array indices have 32 bits, so the array of a root has its bytes when it has each at its index
modulo `2 ^ 32`. Then the body of the definition of a node has the value of the node, if the node
has one and the definitions of its children have their values.
-/

namespace BitvectorCode

open Constant

namespace SmtLib

def Arrays.Know (arrays : Arrays) (root : Root) : Prop :=
  ∀ i byte, root.byte? i = some byte → arrays root.name (.ofNat indexBits i) = byte.toBitVec

/-- The array of the root has its bytes, known or given. -/
def Arrays.Agree (arrays : Arrays) (bytes : Bytes) (root : Root) : Prop :=
  ∀ i byte, (root.byte? i <|> bytes root i) = some byte →
    arrays root.name (.ofNat indexBits i) = byte.toBitVec

def Arrays.bytes (arrays : Arrays) : Bytes :=
  fun root i => some (.ofBitVec (arrays root.name (.ofNat indexBits i)))

namespace Arrays

variable {arrays : Arrays} {bytes : Bytes} {root : Root}

theorem Agree.know (h : arrays.Agree bytes root) : arrays.Know root :=
  fun i byte hbyte => h i byte (by simp [hbyte])

theorem Know.agree_bytes (h : arrays.Know root) : arrays.Agree arrays.bytes root := by
  intro i byte hbyte
  cases hknown : root.byte? i with
  | none =>
    simp only [hknown, bytes] at hbyte
    exact congrArg UInt8.toBitVec (Option.some.inj hbyte)
  | some known =>
    simp only [hknown] at hbyte
    cases Option.some.inj hbyte
    exact h i byte hknown

end Arrays

/-- The array of the root is in scope, and has the bytes of the root if everything asserted so far
holds. -/
def State.Reads (s : State) (arrays : Arrays) (bytes : Bytes) (root : Root) : Prop :=
  s.scope root.name = some (.array (arrays root.name)) ∧ (s.holds = true → arrays.Agree bytes root)

namespace Term

/-- The value of the term is a bitvector of `w` bits. It is the value of the tree, if the tree has
one and everything asserted so far holds. -/
def Denotes (bytes : Bytes) (s : State) (w : Nat) (t : Term) (tree : Tree) : Prop :=
  ∃ v : BitVec w, t.value s.scope = some (.bits v) ∧
    (s.holds = true → ∀ c, tree.eval bytes = .ok c → c = ofBitVec v)

variable {scope : Scope} {w n : Nat} {t : Term}

theorem value_indexed {v : BitVec w} (h : t.value scope = some (.bits v)) :
    (if w < indexBits then zeroExtend (indexBits - w) t
      else if indexBits < w then extract (indexBits - 1) 0 t else t).value scope =
      some (.bits (v.setWidth indexBits)) := by
  rcases Nat.lt_trichotomy w indexBits with hlt | rfl | hgt
  · rw [if_pos hlt, value_zeroExtend h, Nat.add_sub_cancel' (Nat.le_of_lt hlt)]
  · rw [if_neg (Nat.lt_irrefl _), if_neg (Nat.lt_irrefl _), h, BitVec.setWidth_eq]
  · have hcut : v.extractLsb' 0 indexBits = v.setWidth indexBits := by
      apply BitVec.eq_of_getLsbD_eq
      intro i hi
      simp [hi]
    rw [if_neg (Nat.lt_asymm hgt), if_pos hgt, value_extract h (Nat.zero_le _) (by omega), ← hcut]
    rfl

namespace Denotes

variable {bytes : Bytes} {s : State} {u r : Term} {x y z : Tree} {m : Nat}

theorem literal {c : Constant} (hw : 0 < c.bits) (hc : c.Valid) :
    (Term.literal c.value c.bits).Denotes bytes s c.bits (.constant c) := by
  refine ⟨BitVec.ofNat c.bits c.value, value_literal hw hc, fun _ d hd => ?_⟩
  cases hd
  exact eq_ofBitVec hc

theorem select {arrays : Arrays} {root : Root} (hread : s.Reads arrays bytes root) {v : BitVec w}
    (ht : t.value s.scope = some (.bits (v.setWidth indexBits)))
    (hv : s.holds = true → ∀ i, x.eval bytes = .ok i → i = ofBitVec v) :
    (Term.select root.name t).Denotes bytes s 8 (.read root x) := by
  refine ⟨_, value_select hread.1 ht, fun hs c hc => ?_⟩
  obtain ⟨i, hi, hc⟩ := bind_eq_ok_iff.1 hc
  cases hv hs i hi
  have hindex : BitVec.ofNat indexBits v.toNat = v.setWidth indexBits := by
    apply BitVec.eq_of_toNat_eq
    simp
  split at hc
  · next byte hbyte =>
    obtain ⟨k, hk, hbyte⟩ := Option.bind_eq_some_iff.1 hbyte
    obtain rfl : v.toNat = k := (word?_eq_some_iff.1 hk).2.symm
    have hvalue := hread.2 hs _ _ hbyte
    rw [hindex] at hvalue
    cases hc
    rw [hvalue]
    exact ofNat_toNat byte.toBitVec
  · cases hc

theorem concat (ht : t.Denotes bytes s m x) (hu : u.Denotes bytes s n y) :
    (Term.concat t u).Denotes bytes s (m + n) (.concat x y) := by
  obtain ⟨h, ht, hx⟩ := ht
  obtain ⟨l, hu, hy⟩ := hu
  refine ⟨h ++ l, value_concat ht hu, fun hs c hc => ?_⟩
  obtain ⟨a, b, ha, hb, rfl⟩ := Tree.eval_concat_eq_ok_iff.1 hc
  rw [hx hs a ha, hy hs b hb, concat_ofBitVec]

theorem extract (ht : t.Denotes bytes s m x) {offset : Nat} (hw : 0 < w) (hin : offset + w ≤ m) :
    (Term.extract (offset + w - 1) offset t).Denotes bytes s w (.extract x offset w) := by
  obtain ⟨v, ht, hx⟩ := ht
  refine ⟨v.extractLsb' offset w, ?_, fun hs c hc => ?_⟩
  · have hwidth : offset + w - 1 - offset + 1 = w := by omega
    rw [value_extract ht (by omega) (by omega), hwidth]
  · obtain ⟨d, hd, -, rfl⟩ := Tree.eval_extract_eq_ok_iff.1 hc
    rw [hx hs d hd, slice_ofBitVec]

theorem zeroExtend (ht : t.Denotes bytes s m x) (hw : m ≤ w) :
    (Term.zeroExtend (w - m) t).Denotes bytes s w (.zeroExtend x w) := by
  obtain ⟨v, ht, hx⟩ := ht
  refine ⟨v.setWidth w, ?_, fun hs c hc => ?_⟩
  · rw [value_zeroExtend ht, Nat.add_sub_cancel' hw]
  · obtain ⟨d, hd, hc⟩ := bind_eq_ok_iff.1 hc
    cases hc
    rw [hx hs d hd, zeroExtend_ofBitVec]

theorem signExtend (ht : t.Denotes bytes s m x) (hw : m ≤ w) :
    (Term.signExtend (w - m) t).Denotes bytes s w (.signExtend x w) := by
  obtain ⟨v, ht, hx⟩ := ht
  refine ⟨v.signExtend w, ?_, fun hs c hc => ?_⟩
  · rw [value_signExtend ht, Nat.add_sub_cancel' hw]
  · obtain ⟨d, hd, hc⟩ := bind_eq_ok_iff.1 hc
    cases hc
    rw [hx hs d hd, signExtend_ofBitVec]

theorem not (ht : t.Denotes bytes s m x) (hw : x.width = m) :
    (Term.not t).Denotes bytes s m (.not x) := by
  obtain ⟨v, ht, hx⟩ := ht
  refine ⟨~~~v, value_not ht, fun hs c hc => ?_⟩
  obtain ⟨d, hd, hc⟩ := bind_eq_ok_iff.1 hc
  cases hc
  rw [hx hs d hd, hw]
  exact complement_ofBitVec v

theorem binary (ht : t.Denotes bytes s m x) (hu : u.Denotes bytes s m y) (hw : x.width = m)
    (op : BinaryOp) : (Term.binary op t u).Denotes bytes s m (.binary op x y) := by
  obtain ⟨l, ht, hx⟩ := ht
  obtain ⟨r, hu, hy⟩ := hu
  refine ⟨op.total l r, value_binary ht hu op, fun hs c hc => ?_⟩
  obtain ⟨a, ha, b, hb, hc⟩ := Tree.eval_binary_eq_ok_iff.1 hc
  rw [hx hs a ha, hy hs b hb, hw] at hc
  obtain ⟨v, hv, rfl⟩ := BinaryOp.eval_eq_ok_iff.1 hc
  rw [op.total_eq hv]

theorem ofRelation (ht : t.Denotes bytes s m x) (hu : u.Denotes bytes s m y) (op : CompareOp) :
    (Term.ofRelation op t u).Denotes bytes s 1 (.compare op x y) := by
  obtain ⟨l, ht, hx⟩ := ht
  obtain ⟨r, hu, hy⟩ := hu
  refine ⟨_, value_ite ht hu (value_bit true) (value_bit false) op, fun hs c hc => ?_⟩
  obtain ⟨a, ha, b, hb, hc⟩ := Tree.eval_compare_eq_ok_iff.1 hc
  rw [hx hs a ha, hy hs b hb] at hc
  obtain ⟨v, hv, rfl⟩ := CompareOp.eval_eq_ok_iff.1 hc
  rw [op.total_eq hv, ofBool_eq_ofBitVec]
  cases v <;> rfl

theorem ite (ht : t.Denotes bytes s 1 x) (hu : u.Denotes bytes s m y) (hr : r.Denotes bytes s m z) :
    (Term.ite .eq t (.bit true) u r).Denotes bytes s m (.select x y z) := by
  obtain ⟨b, ht, hx⟩ := ht
  obtain ⟨l, hu, hy⟩ := hu
  obtain ⟨r, hr, hz⟩ := hr
  refine ⟨_, value_ite ht (value_bit true) hu hr .eq, fun hs c hc => ?_⟩
  obtain ⟨d, hd, hc⟩ := Tree.eval_select_eq_ok_iff.1 hc
  have hcond : d.isOne = CompareOp.eq.total b (BitVec.ofBool true) := by
    rw [hx hs d hd, Bool.eq_iff_iff]
    simp [isOne, CompareOp.total, ← BitVec.toNat_inj]
  rw [hcond] at hc
  split at hc
  · next h => rw [if_pos h, hy hs c hc]
  · next h => rw [if_neg h, hz hs c hc]

/-- The value of the tree, if it has one, is the value of the term. -/
theorem value_eq (ht : t.Denotes bytes s m x) (hs : s.holds = true) {u : BitVec n}
    (hu : x.eval bytes = .ok (ofBitVec u)) : t.value s.scope = some (.bits u) := by
  obtain ⟨v, ht, hx⟩ := ht
  have huv := hx hs _ hu
  obtain rfl : n = m := congrArg Constant.bits huv
  rw [ht, BitVec.eq_of_toNat_eq (congrArg Constant.value huv)]

end Denotes

end Term

end SmtLib

namespace Graph

open SmtLib

variable {g : Graph} {e : NodeId} {arrays : Arrays} {bytes : Bytes} {s : State}

theorem readRoot?_eq_some_iff {root : Root} :
    g.readRoot? e = some root ↔ ∃ r index, g.expr e = .read r index ∧ g.root r = root := by
  unfold readRoot?
  cases g.expr e <;> simp

/-- The body of a definition has the value of its node. -/
theorem WellFormed.denotes_term (wf : g.WellFormed) (he : e < g.size) (hw : 0 < g.width e)
    (below : ∀ child ∈ (g.expr e).children,
      (Term.definition child).Denotes bytes s (g.width child) (g.tree child))
    (reads : ∀ root, g.readRoot? e = some root → s.Reads arrays bytes root) :
    (g.term e).Denotes bytes s (g.width e) (g.tree e) := by
  have rule := wf.sortRule he
  have width : ∀ child ∈ (g.expr e).children, (g.tree child).width = g.width child :=
    fun child hc => wf.width_tree (wf.child_lt_size he hc)
  rw [wf.tree_eq he]
  unfold term
  cases hx : g.expr e with
  | constant c =>
    rw [hx] at rule
    have hc := wf.constant_valid he hx
    rw [show g.width e = c.bits from rule] at hw ⊢
    exact .literal hw hc
  | read r index =>
    rw [hx] at rule below
    rw [show g.width e = 8 from rule]
    obtain ⟨v, hv, hi⟩ := below index (by simp [Expr.children])
    exact .select (reads _ (readRoot?_eq_some_iff.2 ⟨r, index, hx, rfl⟩)) (Term.value_indexed hv) hi
  | concat high low =>
    rw [hx] at rule below
    rw [show g.width e = _ from rule]
    exact .concat (below high (by simp [Expr.children])) (below low (by simp [Expr.children]))
  | extract inner offset width =>
    rw [hx] at rule below
    obtain ⟨hin, hpos, hwidth⟩ := rule
    rw [hwidth]
    exact .extract (below inner (by simp [Expr.children])) hpos hin
  | zeroExtend inner =>
    rw [hx] at rule below
    exact .zeroExtend (below inner (by simp [Expr.children])) rule
  | signExtend inner =>
    rw [hx] at rule below
    exact .signExtend (below inner (by simp [Expr.children])) rule
  | not inner =>
    rw [hx] at rule below width
    rw [show g.width e = g.width inner from rule]
    exact .not (below inner (by simp [Expr.children])) (width inner (by simp [Expr.children]))
  | binary op lhs rhs =>
    rw [hx] at rule below width
    obtain ⟨hlr, hwidth⟩ := rule
    have right := below rhs (by simp [Expr.children])
    rw [← hlr] at right
    rw [hwidth]
    exact .binary (below lhs (by simp [Expr.children])) right
      (width lhs (by simp [Expr.children])) op
  | compare op lhs rhs =>
    rw [hx] at rule below
    obtain ⟨hlr, hwidth⟩ := rule
    have right := below rhs (by simp [Expr.children])
    rw [← hlr] at right
    rw [hwidth]
    exact .ofRelation (below lhs (by simp [Expr.children])) right op
  | select cond ifTrue ifFalse =>
    rw [hx] at rule below
    obtain ⟨hcond, htf, hwidth⟩ := rule
    have condition := below cond (by simp [Expr.children])
    have other := below ifFalse (by simp [Expr.children])
    rw [hcond] at condition
    rw [← htf] at other
    rw [hwidth]
    exact .ite condition (below ifTrue (by simp [Expr.children])) other

end Graph

end BitvectorCode
