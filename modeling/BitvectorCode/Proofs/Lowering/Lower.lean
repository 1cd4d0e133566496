import BitvectorCode.Proofs.Eval.Evaluation
import BitvectorCode.Proofs.Lowering.Derivation
import BitvectorCode.Proofs.Lowering.Rules

/-!
# Lowering

The code of an expression has the bits and the value of the expression, whenever the variables hold
the bytes of the roots. Two complements of a truth value are dropped without looking at their
operand, so that what is left of them has their value only if it is one bit wide; as the condition
of a selection it may have any width. Concats may have operands of any widths, as long as nothing is
extracted from above a part that is no whole bytes.
-/

namespace BitvectorCode

def Tree.isZeroConstant : Tree → Bool
  | constant c => c.isZero
  | _ => false

def Tree.doubleComplement? : Tree → Option Tree
  | compare .eq lhs (compare .eq innerLhs innerRhs) =>
    if lhs.isZeroConstant && innerLhs.isZeroConstant then some innerRhs else none
  | _ => none

namespace Environment

/-- The variable that holds a byte of a root, and the position of the byte in it: for the packet the
chunk that covers the byte, and for any other root the variable of its symbol. -/
def place? (env : Environment) (root : Root) (i : Nat) : Option (Variable × Nat) :=
  let name := env.options.resolve root.name
  if name = env.options.packetSymbol then
    (env.chunks.lookup i).map fun (start, v) => (v, i - start)
  else env.symbols.symbols[name]?.map fun v => (v, i)

/-- The variables hold the bytes of the roots, known or given. -/
def Describes (env : Environment) (store : Store) (g : Graph) (bytes : Bytes) : Prop :=
  ∀ r < g.roots.size, ∀ (i : Nat) (v : Variable) (k : Nat) (byte : UInt8),
    env.place? (g.root r) i = some (v, k) → k < v.type.bytes →
      ((g.root r).byte? i <|> bytes (g.root r) i) = some byte → store v k = byte

variable {env : Environment} {g : Graph} {store : Store} {bytes : Bytes}
    {root : Root} {v : Variable}

theorem place?_of_symbol (hname : env.options.resolve root.name ≠ env.options.packetSymbol)
    (hv : env.symbols.symbols[env.options.resolve root.name]? = some v) (i : Nat) :
    env.place? root i = some (v, i) := by
  simp only [place?, if_neg hname, hv, Option.map_some]

theorem describes_of_symbol (hroots : g.roots = #[root])
    (hplace : ∀ i, env.place? root i = some (v, i))
    (h : ∀ i byte, (root.byte? i <|> bytes root i) = some byte → store v i = byte) :
    env.Describes store g bytes := by
  intro r hr i v' k byte hplace' _ hbyte
  have hroot : g.root r = root := by
    rw [hroots] at hr
    obtain rfl : r = 0 := Nat.lt_one_iff.1 hr
    simp [Graph.root, hroots]
  rw [hroot] at hplace' hbyte
  rw [hplace i] at hplace'
  cases hplace'
  exact h i byte hbyte

end Environment

mutual

/-- The expressions whose code has their value. Reads are at constant positions inside their
variable, and concats have whole bytes on their right. -/
inductive Tree.Lowerable (env : Environment) : Tree → Prop
  | constant (c : Constant) : Lowerable env (.constant c)
  | read {root : Root} {i : Constant} {v : Variable} {k : Nat}
      (place : env.place? root i.value = some (v, k)) (whole : v.Whole)
      (inside : k < v.type.bytes) :
      Lowerable env (.read root (.constant i))
  | concat {high low : Tree} (hh : high.Lowerable env) (hl : low.Lowerable env)
      (aligned : low.width % 8 = 0) : Lowerable env (.concat high low)
  | extract {inner : Tree} {offset width : Nat} (hi : inner.Lowerable env) :
      Lowerable env (.extract inner offset width)
  | zeroExtend {inner : Tree} {width : Nat} (hi : inner.Lowerable env) :
      Lowerable env (.zeroExtend inner width)
  | signExtend {inner : Tree} {width : Nat} (hi : inner.Lowerable env) :
      Lowerable env (.signExtend inner width)
  | not {inner : Tree} (hi : inner.Lowerable env) : Lowerable env (.not inner)
  | binary {op : BinaryOp} {lhs rhs : Tree} (hl : lhs.Lowerable env) (hr : rhs.Lowerable env) :
      Lowerable env (.binary op lhs rhs)
  | compare {op : CompareOp} {lhs rhs : Tree}
      (single : (Tree.compare op lhs rhs).doubleComplement? = none)
      (hl : lhs.Lowerable env) (hr : rhs.Lowerable env) : Lowerable env (.compare op lhs rhs)
  | doubled {op : CompareOp} {lhs rhs x : Tree}
      (double : (Tree.compare op lhs rhs).doubleComplement? = some x) (bit : x.width = 1)
      (hx : x.Lowerable env) : Lowerable env (.compare op lhs rhs)
  | select {cond ifTrue ifFalse : Tree} (hc : cond.IsCondition env) (ht : ifTrue.Lowerable env)
      (hf : ifFalse.Lowerable env) : Lowerable env (.select cond ifTrue ifFalse)

/-- The expressions whose code is zero exactly when they are. -/
inductive Tree.IsCondition (env : Environment) : Tree → Prop
  | value {t : Tree} (ht : t.Lowerable env) : IsCondition env t
  | doubled {t x : Tree} (double : t.doubleComplement? = some x) (hx : x.IsCondition env) :
      IsCondition env t

end

mutual

/-- The expressions whose code has their value, with concats of any widths among them. A concat that
can come to the top of the code has a width on its right that `lows` allows. Bits are only taken out
of concats with whole bytes there, and operators may have any concats as operands. -/
inductive Tree.Composed (env : Environment) : (lows : Nat → Prop) → Tree → Prop
  | constant {lows : Nat → Prop} (c : Constant) : Composed env lows (.constant c)
  | read {lows : Nat → Prop} {root : Root} {i : Constant} {v : Variable} {k : Nat}
      (place : env.place? root i.value = some (v, k)) (whole : v.Whole)
      (inside : k < v.type.bytes) :
      Composed env lows (.read root (.constant i))
  | concat {lows : Nat → Prop} {high low : Tree} (hh : high.Composed env lows)
      (hl : low.Composed env lows) (fits : lows low.width) : Composed env lows (.concat high low)
  | extract {lows : Nat → Prop} {inner : Tree} {offset width : Nat}
      (hi : inner.Composed env (· % 8 = 0)) (bytes : ∀ n, n % 8 = 0 → lows n) :
      Composed env lows (.extract inner offset width)
  | zeroExtend {lows : Nat → Prop} {inner : Tree} {width : Nat} (hi : inner.Composed env lows) :
      Composed env lows (.zeroExtend inner width)
  | signExtend {lows : Nat → Prop} {inner : Tree} {width : Nat} (hi : inner.Composed env lows) :
      Composed env lows (.signExtend inner width)
  | not {lows lows' : Nat → Prop} {inner : Tree} (hi : inner.Composed env lows') :
      Composed env lows (.not inner)
  | binary {lows lows' lows'' : Nat → Prop} {op : BinaryOp} {lhs rhs : Tree}
      (hl : lhs.Composed env lows') (hr : rhs.Composed env lows'') :
      Composed env lows (.binary op lhs rhs)
  | compare {lows lows' lows'' : Nat → Prop} {op : CompareOp} {lhs rhs : Tree}
      (single : (Tree.compare op lhs rhs).doubleComplement? = none) (hl : lhs.Composed env lows')
      (hr : rhs.Composed env lows'') : Composed env lows (.compare op lhs rhs)
  | doubled {lows : Nat → Prop} {op : CompareOp} {lhs rhs x : Tree}
      (double : (Tree.compare op lhs rhs).doubleComplement? = some x) (bit : x.width = 1)
      (hx : x.Composed env lows) : Composed env lows (.compare op lhs rhs)
  | select {lows : Nat → Prop} {cond ifTrue ifFalse : Tree} (hc : cond.Decides env)
      (ht : ifTrue.Composed env lows) (hf : ifFalse.Composed env lows) :
      Composed env lows (.select cond ifTrue ifFalse)

/-- The expressions whose code is zero exactly when they are, with concats of any widths among
them. -/
inductive Tree.Decides (env : Environment) : Tree → Prop
  | value {lows : Nat → Prop} {t : Tree} (ht : t.Composed env lows) : Decides env t
  | doubled {t x : Tree} (double : t.doubleComplement? = some x) (hx : x.Decides env) :
      Decides env t

end

mutual

theorem Tree.Lowerable.composed {env : Environment} :
    {t : Tree} → t.Lowerable env → t.Composed env (· % 8 = 0)
  | _, .constant c => .constant c
  | _, .read place whole inside => .read place whole inside
  | _, .concat hh hl aligned => .concat hh.composed hl.composed aligned
  | _, .extract hi => .extract hi.composed fun _ h => h
  | _, .zeroExtend hi => .zeroExtend hi.composed
  | _, .signExtend hi => .signExtend hi.composed
  | _, .not hi => .not hi.composed
  | _, .binary hl hr => .binary hl.composed hr.composed
  | _, .compare single hl hr => .compare single hl.composed hr.composed
  | _, .doubled double bit hx => .doubled double bit hx.composed
  | _, .select hc ht hf => .select hc.decides ht.composed hf.composed

theorem Tree.IsCondition.decides {env : Environment} : {t : Tree} →
    t.IsCondition env → t.Decides env
  | _, .value ht => .value ht.composed
  | _, .doubled double hx => .doubled double hx.decides

end

theorem Tree.Composed.index_eq {env : Environment} {lows : Nat → Prop} {root : Root} {index : Tree}
    (h : (Tree.read root index).Composed env lows) : ∃ i v k, index = .constant i ∧
      env.place? root i.value = some (v, k) ∧ v.Whole ∧ k < v.type.bytes := by
  cases h with
  | read place whole inside => exact ⟨_, _, _, rfl, place, whole, inside⟩

theorem Tree.composed_of_symbol {env : Environment} {root : Root} {v : Variable}
    (place : ∀ i, env.place? root i = some (v, i)) (whole : v.Whole) (inside : 1 < v.type.bytes) :
    (Tree.concat (.read root (.constant ⟨1, 32⟩)) (.read root (.constant ⟨0, 32⟩))).Composed env
      fun _ => True :=
  .concat (.read (place 1) whole inside) (.read (place 0) whole (Nat.zero_lt_of_lt inside)) trivial

open Code

variable {env : Environment} {g : Graph} {store : Store} {bytes : Bytes} {e : NodeId}
variable {lows : Nat → Prop}

theorem Store.read_byte {v : Variable} {k : Nat} :
    store.read v k 8 = .ofNat (store v k).toNat 8 := by
  simp [Store.read, natOfBytes]

theorem Tree.eval_of_isZeroConstant {t : Tree} {c : Constant} (h : t.isZeroConstant = true)
    (hc : t.eval bytes = .ok c) : c.value = 0 := by
  unfold isZeroConstant at h
  split at h
  · cases hc
    simpa [Constant.isZero] using h
  · cases h

theorem Tree.eval_of_doubleComplement? {t x : Tree} {c : Constant}
    (h : t.doubleComplement? = some x) (hc : t.eval bytes = .ok c) :
    ∃ d, x.eval bytes = .ok d ∧ c = .ofBool (!d.isZero) := by
  unfold doubleComplement? at h
  split at h
  · next lhs innerLhs innerRhs =>
    split at h
    · next hzeros =>
      obtain ⟨hzero, hzero'⟩ := Bool.and_eq_true_iff.1 hzeros
      obtain ⟨l, hl, r, hr, houter⟩ := eval_compare_eq_ok_iff.1 hc
      obtain ⟨l', hl', d, hd, hinner⟩ := eval_compare_eq_ok_iff.1 hr
      have hl0 := eval_of_isZeroConstant hzero hl
      have hl0' := eval_of_isZeroConstant hzero' hl'
      cases h
      cases houter
      cases hinner
      refine ⟨d, hd, ?_⟩
      have hinner : (l'.value == d.value) = d.isZero := by
        rw [hl0', Constant.isZero, Bool.eq_iff_iff, beq_iff_eq, beq_iff_eq]
        exact eq_comm
      rw [hl0, hinner]
      cases d.isZero <;> rfl
    · cases h
  · cases h

namespace Graph.WellFormed

variable (wf : g.WellFormed)
include wf

theorem isZeroConstant_tree (he : e < g.size) :
    (g.tree e).isZeroConstant = g.isZeroConstant e := by
  rw [wf.tree_eq he, Graph.isZeroConstant]
  cases g.expr e <;> rfl

theorem doubleComplement?_tree (he : e < g.size) :
    (g.tree e).doubleComplement? = (g.doubleComplement? (g.expr e)).map g.tree := by
  have htree := wf.tree_eq he
  cases hx : g.expr e with
  | compare op lhs rhs =>
    have hlhs : lhs < g.size := wf.child_lt_size he (by simp [hx, Expr.children])
    have hrhs : rhs < g.size := wf.child_lt_size he (by simp [hx, Expr.children])
    have htree' := wf.tree_eq hrhs
    rw [htree, hx, Expr.unfold, htree']
    cases op with
    | eq =>
      cases hr : g.expr rhs with
      | compare op' innerLhs innerRhs =>
        have hinner : innerLhs < g.size := wf.child_lt_size hrhs (by simp [hr, Expr.children])
        cases op' with
        | eq =>
          simp only [Expr.unfold, Tree.doubleComplement?, Graph.doubleComplement?, hr,
            wf.isZeroConstant_tree hlhs, wf.isZeroConstant_tree hinner]
          split <;> rfl
        | _ => simp [Expr.unfold, Tree.doubleComplement?, Graph.doubleComplement?, hr]
      | _ => simp [Expr.unfold, Tree.doubleComplement?, Graph.doubleComplement?, hr]
    | _ => simp [Tree.doubleComplement?, Graph.doubleComplement?]
  | _ =>
    rw [htree, hx]
    rfl

end Graph.WellFormed

namespace Environment

/-- The code has the bits and the value of a node, if code can have it. -/
def HasValue (env : Environment) (g : Graph) (store : Store) (bytes : Bytes) (e : NodeId)
    (code : Code) : Prop :=
  ∀ lows, (g.tree e).Composed env lows →
    code.Gives lows store (g.width e) fun c => (g.tree e).eval bytes = .ok c

def TellsZero (env : Environment) (g : Graph) (store : Store) (bytes : Bytes) (e : NodeId)
    (code : Code) : Prop :=
  (g.tree e).Decides env → (∃ lows, code.Ok lows store) ∧ ∀ c, (g.tree e).eval bytes = .ok c →
    ∃ d, code.eval store = some d ∧ (d.isZero = true ↔ c.isZero = true)

structure Right (env : Environment) (g : Graph) (store : Store) (bytes : Bytes) (e : NodeId)
    (code : Code) : Prop where
  hasValue : HasValue env g store bytes e code
  tellsZero : TellsZero env g store bytes e code

variable {code new : Code}

theorem Right.of_hasValue (wf : g.WellFormed) (he : e < g.size) {x : Expr} (hx : g.expr e = x)
    (hsingle : g.doubleComplement? x = none) (h : HasValue env g store bytes e code) :
    Right env g store bytes e code := by
  constructor
  · exact h
  intro hcond
  cases hcond with
  | @value lows _ ht =>
    have hgives := h lows ht
    exact ⟨⟨lows, hgives.ok⟩, fun c hc => ⟨c, hgives.eval_eq c hc, Iff.rfl⟩⟩
  | doubled double =>
    rw [wf.doubleComplement?_tree he, hx, hsingle] at double
    cases double

theorem HasValue.simplify (hd : env.types.overrides = ∅) (h : HasValue env g store bytes e code)
    (hs : code.simplify env.types = .ok new) : HasValue env g store bytes e new :=
  fun lows ht => (h lows ht).simplify hd hs

theorem TellsZero.simplify (hd : env.types.overrides = ∅) (h : TellsZero env g store bytes e code)
    (hs : code.simplify env.types = .ok new) : TellsZero env g store bytes e new := by
  intro hcond
  obtain ⟨⟨lows, hok⟩, hzero⟩ := h hcond
  have hnew := (Gives.of_ok hok).simplify hd hs
  constructor
  · exact ⟨lows, hnew.ok⟩
  intro c hc
  obtain ⟨d, hdv, hiff⟩ := hzero c hc
  exact ⟨d, hnew.eval_eq d hdv, hiff⟩

theorem HasValue.of_unfold (wf : g.WellFormed) (he : e < g.size) {x : Expr} (hx : g.expr e = x)
    (h : ∀ lows, (x.unfold g (g.width e) g.tree).Composed env lows →
      x.SortRule g.width (g.width e) →
      code.Gives lows store (g.width e) fun c =>
        (x.unfold g (g.width e) g.tree).eval bytes = .ok c) :
    HasValue env g store bytes e code := by
  subst hx
  intro lows ht
  rw [wf.tree_eq he] at ht ⊢
  exact h lows ht (wf.sortRule he)

theorem readByte_gives {v : Variable} {index : Code} {k : Nat} (hv : v.Whole)
    (hindex : index.IsIndex store k) (hin : k < v.type.bytes) :
    (read v .byte index).Gives lows store 8 fun c => .ofNat (store v k).toNat 8 = c := by
  have hinside : 8 * k + 8 ≤ v.type.bits := by
    have hwhole := hv.2
    unfold Ty.bytes at hin
    omega
  refine ⟨⟨hv, ⟨rfl, by decide, by decide⟩, k, hindex, hinside⟩, rfl, ?_⟩
  rintro c rfl
  rw [eval_read hindex, ← Store.read_byte]
  rfl

theorem isIndex_of_gives {index : Code} {i : Constant} {w : Nat}
    (h : index.Gives lows store w fun c => i = c) : index.IsIndex store i.value := by
  have heval := h.eval_eq i rfl
  refine ⟨⟨i, heval, rfl⟩, ?_⟩
  intro n hn
  have hsame := (h.ok.eval_of_value? hn).1
  cases heval.symm.trans hsame
  rfl

section

variable (hd : env.types.overrides = ∅)
include hd

section Nodes

variable (wf : g.WellFormed) (he : e < g.size) {inner high low lhs rhs cond ifTrue ifFalse : NodeId}
variable {c₁ c₂ c₃ : Code}
include wf he

theorem hasValue_constant {c : Constant} (hx : g.expr e = .constant c)
    (h : env.lowerConstant c = .ok code) : HasValue env g store bytes e code := by
  apply HasValue.of_unfold wf he hx
  intro lows _ (hw : g.width e = c.bits)
  rw [hw]
  apply (lowerConstant_gives hd (wf.constant_valid he hx) h).mono
  intro d hc
  exact Except.ok.inj hc

theorem hasValue_concat (hx : g.expr e = .concat high low) (hh : HasValue env g store bytes high c₁)
    (hl : HasValue env g store bytes low c₂) (h : env.lowerConcat g e c₁ c₂ = .ok code) :
    HasValue env g store bytes e code := by
  apply HasValue.of_unfold wf he hx
  intro lows ht (hw : g.width e = g.width high + g.width low)
  obtain ⟨hh', hl', fits⟩ : (g.tree high).Composed env lows ∧ (g.tree low).Composed env lows ∧
      lows (g.tree low).width := by
    cases ht with
    | concat hh' hl' fits => exact ⟨hh', hl', fits⟩
  rw [wf.width_tree (wf.child_lt_size he (by simp [hx, Expr.children]))] at fits
  rw [hw]
  apply (lowerConcat_gives hd (hh lows hh') (hl lows hl') fits hw h).mono
  intro c hc
  obtain ⟨l, r, hlv, hrv, rfl⟩ := Tree.eval_concat_eq_ok_iff.1 hc
  exact ⟨l, r, hlv, hrv, rfl⟩

theorem hasValue_extract {offset width : Nat} (hx : g.expr e = .extract inner offset width)
    (hi : HasValue env g store bytes inner c₁) (ho : offset % 8 = 0)
    (h : env.lowerExtract c₁ offset width = .ok code) : HasValue env g store bytes e code := by
  apply HasValue.of_unfold wf he hx
  intro lows ht hsort
  obtain ⟨hin, hpos, hw⟩ := hsort
  obtain ⟨hi', bytes⟩ : (g.tree inner).Composed env (· % 8 = 0) ∧ ∀ n, n % 8 = 0 → lows n := by
    cases ht with
    | extract hi' bytes => exact ⟨hi', bytes⟩
  rw [hw]
  apply ((lowerExtract_gives_aligned hd (hi _ hi') ho hpos hin h).weaken bytes).mono
  intro c hc
  obtain ⟨d, hdv, -, rfl⟩ := Tree.eval_extract_eq_ok_iff.1 hc
  exact ⟨d, hdv, rfl⟩

theorem hasValue_zeroExtend {type : Ty} (hx : g.expr e = .zeroExtend inner)
    (hi : HasValue env g store bytes inner c₁) (htype : env.types.typeFor (g.width e) = .ok type) :
    HasValue env g store bytes e (.cast c₁ type) := by
  apply HasValue.of_unfold wf he hx
  intro lows ht _
  have hi' : (g.tree inner).Composed env lows := by
    cases ht with
    | zeroExtend hi' => exact hi'
  obtain ⟨hplain, hbits⟩ := TypeContext.typeFor_plain hd htype
  have hgives := cast_gives (hi lows hi') hplain
  rw [hbits] at hgives
  apply hgives.mono
  intro c hc
  obtain ⟨d, hdv, hcv⟩ := bind_eq_ok_iff.1 hc
  cases hcv
  exact ⟨d, hdv, rfl⟩

theorem hasValue_signExtend (hx : g.expr e = .signExtend inner)
    (hi : HasValue env g store bytes inner c₁)
    (h : env.lowerSignExtend c₁ (g.width e) = .ok code) : HasValue env g store bytes e code := by
  apply HasValue.of_unfold wf he hx
  intro lows ht (hw : g.width inner ≤ g.width e)
  have hi' : (g.tree inner).Composed env lows := by
    cases ht with
    | signExtend hi' => exact hi'
  apply (lowerSignExtend_gives hd (hi lows hi') hw h).mono
  intro c hc
  obtain ⟨d, hdv, hcv⟩ := bind_eq_ok_iff.1 hc
  cases hcv
  exact ⟨d, hdv, rfl⟩

omit hd in
theorem hasValue_not (hx : g.expr e = .not inner) (hi : HasValue env g store bytes inner c₁) :
    HasValue env g store bytes e (complement c₁) := by
  apply HasValue.of_unfold wf he hx
  intro lows ht (hw : g.width e = g.width inner)
  obtain ⟨lows', hi'⟩ : ∃ lows', (g.tree inner).Composed env lows' := by
    cases ht with
    | not hi' => exact ⟨_, hi'⟩
  have hwidth : (g.tree inner).width = g.width inner :=
    wf.width_tree (wf.child_lt_size he (by simp [hx, Expr.children]))
  rw [hw]
  apply (complement_gives (hi lows' hi')).mono
  intro c hc
  obtain ⟨d, hdv, hcv⟩ := bind_eq_ok_iff.1 hc
  cases hcv
  exact ⟨d, hdv, by rw [hwidth]⟩

theorem hasValue_binary {op : BinaryOp} (hx : g.expr e = .binary op lhs rhs)
    (hl : HasValue env g store bytes lhs c₁) (hr : HasValue env g store bytes rhs c₂)
    (h : env.lowerBinary op c₁ c₂ (g.width e) = .ok code) : HasValue env g store bytes e code := by
  apply HasValue.of_unfold wf he hx
  intro lows ht hsort
  obtain ⟨hsame, hw⟩ := hsort
  obtain ⟨⟨lows', hl'⟩, lows'', hr'⟩ :
      (∃ lows', (g.tree lhs).Composed env lows') ∧ ∃ lows'', (g.tree rhs).Composed env lows'' := by
    cases ht with
    | binary hl' hr' => exact ⟨⟨_, hl'⟩, _, hr'⟩
  have hwidth : (g.tree lhs).width = g.width lhs :=
    wf.width_tree (wf.child_lt_size he (by simp [hx, Expr.children]))
  rw [hw] at h ⊢
  apply (lowerBinary_gives hd (hl lows' hl') (hsame ▸ hr lows'' hr') h).mono
  intro c hc
  obtain ⟨l, hlv, r, hrv, hcv⟩ := Tree.eval_binary_eq_ok_iff.1 hc
  exact ⟨l, r, hlv, hrv, hwidth ▸ hcv⟩

theorem hasValue_compare {op : CompareOp} (hx : g.expr e = .compare op lhs rhs)
    (hsingle : g.doubleComplement? (.compare op lhs rhs) = none)
    (hl : HasValue env g store bytes lhs c₁)
    (hr : HasValue env g store bytes rhs c₂) (h : env.lowerCompare op c₁ c₂ = .ok code) :
    HasValue env g store bytes e code := by
  have hsingle' : (g.tree e).doubleComplement? = none := by
    rw [wf.doubleComplement?_tree he, hx, hsingle, Option.map_none]
  rw [wf.tree_eq he, hx] at hsingle'
  apply HasValue.of_unfold wf he hx
  intro lows ht hsort
  obtain ⟨hsame, hw⟩ := hsort
  obtain ⟨⟨lows', hl'⟩, lows'', hr'⟩ :
      (∃ lows', (g.tree lhs).Composed env lows') ∧ ∃ lows'', (g.tree rhs).Composed env lows'' := by
    cases ht with
    | compare _ hl' hr' => exact ⟨⟨_, hl'⟩, _, hr'⟩
    | doubled double =>
      rw [Expr.unfold, double] at hsingle'
      cases hsingle'
  rw [hw]
  apply (lowerCompare_gives hd (hl lows' hl') (hsame ▸ hr lows'' hr') h).mono
  intro c hc
  obtain ⟨l, hlv, r, hrv, hcv⟩ := Tree.eval_compare_eq_ok_iff.1 hc
  exact ⟨l, r, hlv, hrv, hcv⟩

omit hd in
theorem hasValue_select (hx : g.expr e = .select cond ifTrue ifFalse)
    (hc : TellsZero env g store bytes cond c₁) (ht : HasValue env g store bytes ifTrue c₂)
    (hf : HasValue env g store bytes ifFalse c₃) :
    HasValue env g store bytes e (choose c₁ c₂ c₃) := by
  apply HasValue.of_unfold wf he hx
  intro lows hl hsort
  obtain ⟨hbit, hsame, hw⟩ := hsort
  obtain ⟨hc', ht', hf'⟩ : (g.tree cond).Decides env ∧ (g.tree ifTrue).Composed env lows ∧
      (g.tree ifFalse).Composed env lows := by
    cases hl with
    | select hc' ht' hf' => exact ⟨hc', ht', hf'⟩
  have hcond : cond < g.size := wf.child_lt_size he (by simp [hx, Expr.children])
  have hchoice : ∀ c, (g.tree cond).eval bytes = .ok c →
      ∃ d, c₁.eval store = some d ∧ (d.isZero = true ↔ ¬ c.isOne = true) := by
    intro c hcv
    obtain ⟨d, hdv, hzero⟩ := (hc hc').2 c hcv
    obtain ⟨hbits, hvalid⟩ := Tree.eval_fits (wf.wellSorted_tree hcond) hcv
    have hlt : c.value < 2 ^ 1 := by
      have hone : c.bits = 1 := by rw [hbits, wf.width_tree hcond, hbit]
      rw [← hone]
      exact hvalid
    refine ⟨d, hdv, hzero.trans ?_⟩
    simp only [Constant.isZero, Constant.isOne, beq_iff_eq]
    omega
  rw [hw]
  apply (choose_gives hchoice (ht lows ht') (hsame ▸ hf lows hf')).mono
  intro c hcv
  exact Tree.eval_select_eq_ok_iff.1 hcv

omit hd in
theorem hasValue_read (hs : env.Describes store g bytes) {r : RootId} {index : NodeId}
    (hx : g.expr e = .read r index)
    (h : ∀ i v k, g.tree index = .constant i → env.place? (g.root r) i.value = some (v, k) →
      ∃ position, code = .read v .byte position ∧ position.IsIndex store k) :
    HasValue env g store bytes e code := by
  have hr : r < g.roots.size := wf.root_lt he (by simp [hx, Expr.roots])
  apply HasValue.of_unfold wf he hx
  intro lows ht (hw : g.width e = 8)
  obtain ⟨i, v, k, hi, hplace, hv, hin⟩ := Tree.Composed.index_eq ht
  obtain ⟨position, rfl, hposition⟩ := h i v k hi hplace
  rw [hw]
  apply (readByte_gives hv hposition hin).mono
  intro c hc
  rw [Expr.unfold, hi] at hc
  obtain ⟨byte, hbyte, rfl⟩ := Tree.eval_read_constant hc
  rw [hs r hr i.value v k byte hplace hin hbyte]

omit hd in
theorem hasValue_packetRead (hs : env.Describes store g bytes) {r : RootId} {index : NodeId}
    (hx : g.expr e = .read r index)
    (hname : env.options.resolve (g.root r).name = env.options.packetSymbol)
    (h : env.lowerPacketRead g index (env.options.resolve (g.root r).name) = .ok code) :
    HasValue env g store bytes e code := by
  have hindex : index < g.size := wf.child_lt_size he (by simp [hx, Expr.children])
  refine hasValue_read wf he hs hx fun i v k hi hplace => ?_
  simp only [place?, if_pos hname] at hplace
  obtain ⟨⟨start, v'⟩, hlookup, hsome⟩ := Option.map_eq_some_iff.1 hplace
  cases hsome
  unfold lowerPacketRead at h
  rw [wf.expr_of_tree_constant hindex hi] at h
  split at h
  · cases h
  · next offset hoffset =>
    have hword : offset = i.value := (Constant.word?_eq_some_iff.1 hoffset).2
    rw [hword, hlookup] at h
    cases h
    exact ⟨_, rfl, isIndex_scalar _ _⟩

omit hd in
theorem hasValue_symbolRead (hs : env.Describes store g bytes) {r : RootId} {index : NodeId}
    {v : Variable} (hx : g.expr e = .read r index)
    (hname : env.options.resolve (g.root r).name ≠ env.options.packetSymbol)
    (hv : env.symbols.symbols[env.options.resolve (g.root r).name]? = some v)
    (hi : HasValue env g store bytes index c₁) :
    HasValue env g store bytes e (.read v .byte c₁) := by
  refine hasValue_read wf he hs hx fun i v' k hindex hplace => ?_
  rw [place?_of_symbol hname hv] at hplace
  cases hplace
  have hgives := hi (fun _ => True) (hindex ▸ .constant i)
  exact ⟨c₁, rfl, isIndex_of_gives (hgives.mono fun c hc => by rw [hindex, ← hc]; rfl)⟩

omit hd in
theorem right_doubled {op : CompareOp} {x : NodeId} (hx : g.expr e = .compare op lhs rhs)
    (hfound : g.doubleComplement? (.compare op lhs rhs) = some x) (hlt : x < g.size)
    (h : Right env g store bytes x code) : Right env g store bytes e code := by
  have hdouble : (g.tree e).doubleComplement? = some (g.tree x) := by
    rw [wf.doubleComplement?_tree he, hx, hfound, Option.map_some]
  have hvalue : HasValue env g store bytes e code := by
    have hdouble' := hdouble
    rw [wf.tree_eq he, hx] at hdouble'
    intro lows ht
    have hw : g.width e = 1 := by
      have hsort := wf.sortRule he
      rw [hx] at hsort
      exact hsort.2
    obtain ⟨bit, hx'⟩ : (g.tree x).width = 1 ∧ (g.tree x).Composed env lows := by
      rw [wf.tree_eq he, hx] at ht
      cases ht with
      | compare single =>
        rw [Expr.unfold, single] at hdouble'
        cases hdouble'
      | doubled double bit hx' =>
        rw [Expr.unfold, double] at hdouble'
        cases hdouble'
        exact ⟨bit, hx'⟩
    have hgives := h.hasValue lows hx'
    rw [← wf.width_tree hlt, bit] at hgives
    rw [hw]
    apply hgives.mono
    intro c hc
    obtain ⟨d, hdv, rfl⟩ := Tree.eval_of_doubleComplement? hdouble hc
    obtain ⟨hbits, hvalid⟩ := Tree.eval_fits (wf.wellSorted_tree hlt) hdv
    rw [hdv]
    exact congrArg Except.ok (Constant.eq_ofBool (hbits.trans bit) hvalid)
  constructor
  · exact hvalue
  intro hcond
  cases hcond with
  | @value lows _ ht =>
    have hgives := hvalue lows ht
    exact ⟨⟨lows, hgives.ok⟩, fun c hc => ⟨c, hgives.eval_eq c hc, Iff.rfl⟩⟩
  | doubled double hx' =>
    rw [hdouble] at double
    cases double
    obtain ⟨hok, hzero⟩ := h.tellsZero hx'
    constructor
    · exact hok
    intro c hc
    obtain ⟨d, hdv, rfl⟩ := Tree.eval_of_doubleComplement? hdouble hc
    obtain ⟨d', hdv', hiff⟩ := hzero d hdv
    refine ⟨d', hdv', hiff.trans ?_⟩
    cases d.isZero <;> decide

end Nodes

theorem Lowers.right (wf : g.WellFormed) (hs : env.Describes store g bytes)
    (h : env.Lowers g e code) (he : e < g.size) : Right env g store bytes e code := by
  induction h with
  | constant hx hplain hcode =>
    exact .of_hasValue wf he hx rfl ((hasValue_constant hd wf he hx hplain).simplify hd hcode)
  | packetRead hx hname hplain hcode =>
    have hvalue := hasValue_packetRead wf he hs hx hname hplain
    exact .of_hasValue wf he hx rfl (hvalue.simplify hd hcode)
  | symbolRead hx hname hv hindex hcode ih =>
    have hi := ih (wf.child_lt_size he (by simp [hx, Expr.children]))
    have hvalue := hasValue_symbolRead wf he hs hx hname hv hi.hasValue
    exact .of_hasValue wf he hx rfl (hvalue.simplify hd hcode)
  | localRead hx hname hnone hv =>
    refine .of_hasValue wf he hx rfl (hasValue_read wf he hs hx fun i v k _ hplace => ?_)
    simp [place?, hname, hnone] at hplace
  | concat hx hleft hright hcode ihl ihr =>
    have hl := ihl (wf.child_lt_size he (by simp [hx, Expr.children]))
    have hr := ihr (wf.child_lt_size he (by simp [hx, Expr.children]))
    exact .of_hasValue wf he hx rfl (hasValue_concat hd wf he hx hl.hasValue hr.hasValue hcode)
  | extract hx haligned hinner hplain hcode ih =>
    have hi := ih (wf.child_lt_size he (by simp [hx, Expr.children]))
    have hvalue := hasValue_extract hd wf he hx hi.hasValue haligned hplain
    exact .of_hasValue wf he hx rfl (hvalue.simplify hd hcode)
  | zeroExtend hx hinner htype hcode ih =>
    have hi := ih (wf.child_lt_size he (by simp [hx, Expr.children]))
    have hvalue := hasValue_zeroExtend hd wf he hx hi.hasValue htype
    exact .of_hasValue wf he hx rfl (hvalue.simplify hd hcode)
  | signExtend hx hinner hplain hcode ih =>
    have hi := ih (wf.child_lt_size he (by simp [hx, Expr.children]))
    have hvalue := hasValue_signExtend hd wf he hx hi.hasValue hplain
    exact .of_hasValue wf he hx rfl (hvalue.simplify hd hcode)
  | not hx hinner ih =>
    have hi := ih (wf.child_lt_size he (by simp [hx, Expr.children]))
    exact .of_hasValue wf he hx rfl (hasValue_not wf he hx hi.hasValue)
  | binary hx hleft hright hplain hcode ihl ihr =>
    have hl := ihl (wf.child_lt_size he (by simp [hx, Expr.children]))
    have hr := ihr (wf.child_lt_size he (by simp [hx, Expr.children]))
    have hvalue := hasValue_binary hd wf he hx hl.hasValue hr.hasValue hplain
    exact .of_hasValue wf he hx rfl (hvalue.simplify hd hcode)
  | @doubled e lhs rhs x op operand code hx hdouble hinner hcode ih =>
    have hrhs : rhs < g.size := wf.child_lt_size he (by simp [hx, Expr.children])
    have hlt := wf.child_lt_size hrhs (Graph.mem_children_of_doubleComplement? hdouble)
    have hi := ih hlt
    exact right_doubled wf he hx hdouble hlt
      ⟨hi.hasValue.simplify hd hcode, hi.tellsZero.simplify hd hcode⟩
  | compare hx hsingle hleft hright hplain hcode ihl ihr =>
    have hl := ihl (wf.child_lt_size he (by simp [hx, Expr.children]))
    have hr := ihr (wf.child_lt_size he (by simp [hx, Expr.children]))
    have hvalue := hasValue_compare hd wf he hx hsingle hl.hasValue hr.hasValue hplain
    exact .of_hasValue wf he hx hsingle (hvalue.simplify hd hcode)
  | select hx hcond htrue hfalse ihc iht ihf =>
    have hc := ihc (wf.child_lt_size he (by simp [hx, Expr.children]))
    have ht := iht (wf.child_lt_size he (by simp [hx, Expr.children]))
    have hf := ihf (wf.child_lt_size he (by simp [hx, Expr.children]))
    exact .of_hasValue wf he hx rfl (hasValue_select wf he hx hc.tellsZero ht.hasValue hf.hasValue)

end

/-- The code of an expression is right over variables that hold the bytes of the roots. -/
theorem lower_right (hd : env.types.overrides = ∅) (wf : g.WellFormed) (he : e < g.size)
    (hs : env.Describes store g bytes) (h : env.lower g e = .ok code) :
    Right env g store bytes e code :=
  (lowers_of_lower wf he h).right hd wf hs he

/-- The code of an expression has its bits, and over variables that hold the bytes of the roots the
value of the expression, wherever the expression has one. -/
theorem eval_lower (hd : env.types.overrides = ∅) (wf : g.WellFormed) (he : e < g.size)
    (hs : env.Describes store g bytes) (ht : (g.tree e).Lowerable env)
    (h : env.lower g e = .ok code) :
    code.bits = g.width e ∧
      ∀ c, (g.tree e).eval bytes = .ok c → code.eval store = some c := by
  have hgives := (lower_right hd wf he hs h).hasValue _ ht.composed
  exact ⟨hgives.bits_eq, hgives.eval_eq⟩

/-- The high byte of a field of two bytes, sign-extended to 32 bits. -/
theorem eval_lower_of_high_byte :
    let v : Variable := ⟨"header", .unsigned 16⟩
    let env : Environment := ({} : Environment).declareSymbol "header" v
    let store : Store := fun _ k => if k = 1 then 0x80 else 0x34
    let bytes : Bytes := fun _ k => some (if k = 1 then 0x80 else 0x34)
    let g : Graph :=
      { nodes := #[⟨.constant ⟨0, 32⟩, 32⟩, ⟨.read 0 0, 8⟩, ⟨.constant ⟨1, 32⟩, 32⟩, ⟨.read 0 2, 8⟩,
          ⟨.concat 3 1, 16⟩, ⟨.extract 4 8 8, 8⟩, ⟨.signExtend 5, 32⟩]
        roots := #[.symbolic "header" 2] }
    let high : Code := .read v .byte (.index 1)
    let test : Code := .binary .equals (.binary .shr high (.scalar .byte 7) .byte) (.scalar .byte 1)
      (.unsigned 1)
    let negative : Code :=
      .binary .or (.cast high (.unsigned 32)) (.scalar (.unsigned 32) 0xFFFFFF00)
      (.unsigned 32)
    let code : Code := .choose test negative (.cast high (.unsigned 32))
    env.types.overrides = ∅ ∧ g.WellFormed ∧ 6 < g.size ∧ env.Describes store g bytes ∧
      (g.tree 6).Lowerable env ∧ env.lower g 6 = .ok code ∧ code.bits = 32 ∧
        code.eval store = some ⟨0xFFFFFF80, 32⟩ := by
  intro v env store bytes g high test negative code
  have types : env.types.overrides = ∅ := rfl
  have wf : g.WellFormed := by decide +kernel
  have place : ∀ i, env.place? (.symbolic "header" 2) i = some (v, i) := by
    intro i
    have hname : env.options.resolve "header" = "header" := by decide +kernel
    have hsymbol : env.symbols.symbols["header"]? = some v := by decide +kernel
    have hother : ¬ "header" = env.options.packetSymbol := by decide +kernel
    simp only [place?, Root.symbolic, hname, hsymbol, if_neg hother, Option.map_some]
  have describes : env.Describes store g bytes := by
    intro r hr i v' k byte hplace hin hbyte
    obtain rfl : r = 0 := Nat.lt_one_iff.1 hr
    rw [show g.root 0 = .symbolic "header" 2 from rfl] at hplace hbyte
    rw [place i] at hplace
    cases hplace
    cases hbyte
    rfl
  have whole : v.Whole := ⟨⟨rfl, by decide, by decide⟩, by decide⟩
  have tree :
      g.tree 6 = .signExtend (.extract (.concat (.read (.symbolic "header" 2) (.constant ⟨1, 32⟩))
      (.read (.symbolic "header" 2) (.constant ⟨0, 32⟩))) 8 8) 32 := by decide +kernel
  have lowerable : (g.tree 6).Lowerable env := by
    rw [tree]
    exact .signExtend (.extract (.concat (.read (place 1) whole (by decide))
      (.read (place 0) whole (by decide)) (by decide)))
  have lowered : env.lower g 6 = .ok code := by decide +kernel
  obtain ⟨bits, value⟩ := eval_lower types wf (by decide) describes lowerable lowered
  have meaning : (g.tree 6).eval bytes = .ok ⟨0xFFFFFF80, 32⟩ := by
    rw [tree]
    decide +kernel
  exact ⟨types, wf, by decide, describes, lowerable, lowered, bits, value _ meaning⟩

end Environment

end BitvectorCode
