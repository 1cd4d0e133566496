import BitvectorCode.Proofs.Lowering.Lower

/-!
# Double complements in context

`0 = (0 = x)` is a truth value, and lowered to the code of `x`, which has the bits and the value of
`x`. In an expression around it this code has to stand for one bit. It does if `x` is one bit wide,
and for any `x` where the expression only asks whether it is zero, as the condition of a selection.
-/

namespace BitvectorCode

/-- An expression with a hole for another one. -/
inductive Context where
  | hole
  | zeroExtend (inner : Context) (width : Nat)
  | signExtend (inner : Context) (width : Nat)
  | not (inner : Context)
  | concatHigh (high : Context) (low : Tree)
  | concatLow (high : Tree) (low : Context)
  | binaryLeft (op : BinaryOp) (lhs : Context) (rhs : Tree)
  | binaryRight (op : BinaryOp) (lhs : Tree) (rhs : Context)
  | condition (cond : Context) (ifTrue ifFalse : Tree)
  | whenTrue (cond : Tree) (ifTrue : Context) (ifFalse : Tree)
  | whenFalse (cond ifTrue : Tree) (ifFalse : Context)

namespace Context

def fill (t : Tree) : Context → Tree
  | hole => t
  | zeroExtend inner width => .zeroExtend (inner.fill t) width
  | signExtend inner width => .signExtend (inner.fill t) width
  | not inner => .not (inner.fill t)
  | concatHigh high low => .concat (high.fill t) low
  | concatLow high low => .concat high (low.fill t)
  | binaryLeft op lhs rhs => .binary op (lhs.fill t) rhs
  | binaryRight op lhs rhs => .binary op lhs (rhs.fill t)
  | condition cond ifTrue ifFalse => .select (cond.fill t) ifTrue ifFalse
  | whenTrue cond ifTrue ifFalse => .select cond (ifTrue.fill t) ifFalse
  | whenFalse cond ifTrue ifFalse => .select cond ifTrue (ifFalse.fill t)

/-- The expressions beside the hole are lowered to code with their value. -/
def Composed (env : Environment) : Context → Prop
  | hole => True
  | zeroExtend inner _ | signExtend inner _ | not inner => inner.Composed env
  | concatHigh context other | concatLow other context | binaryLeft _ context other
  | binaryRight _ other context => context.Composed env ∧ other.Composed env fun _ => True
  | condition cond ifTrue ifFalse =>
    cond.Composed env ∧ (ifTrue.Composed env fun _ => True) ∧ ifFalse.Composed env fun _ => True
  | whenTrue cond context other | whenFalse cond other context =>
    cond.Decides env ∧ context.Composed env ∧ other.Composed env fun _ => True

def Selects : Context → Prop
  | hole => False
  | condition cond _ _ => cond = hole ∨ cond.Selects
  | zeroExtend inner _ | signExtend inner _ | not inner => inner.Selects
  | concatHigh context _ | concatLow _ context | binaryLeft _ context _ | binaryRight _ _ context
  | whenTrue _ context _ | whenFalse _ _ context => context.Selects

variable {env : Environment} {context : Context} {t : Tree}

/-- The code of an expression has its value if that of the part in the hole has; to be zero together
with the part is enough where the hole is the condition of a selection. -/
theorem composed_fill (hc : context.Composed env)
    (ht : (t.Composed env fun _ => True) ∨ context.Selects ∧ t.Decides env) :
    (context.fill t).Composed env fun _ => True := by
  induction context with
  | hole =>
    rcases ht with ht | ⟨hselects, -⟩
    · exact ht
    · exact hselects.elim
  | zeroExtend inner width ih => exact .zeroExtend (ih hc ht)
  | signExtend inner width ih => exact .signExtend (ih hc ht)
  | not inner ih => exact .not (ih hc ht)
  | concatHigh high low ih => exact .concat (ih hc.1 ht) hc.2 trivial
  | concatLow high low ih => exact .concat hc.2 (ih hc.1 ht) trivial
  | binaryLeft op lhs rhs ih => exact .binary (ih hc.1 ht) hc.2
  | binaryRight op lhs rhs ih => exact .binary hc.2 (ih hc.1 ht)
  | condition cond ifTrue ifFalse ih =>
    obtain ⟨hcond, htrue, hfalse⟩ := hc
    rcases ht with ht | ⟨rfl | hselects, ht⟩
    · exact .select (.value (ih hcond (.inl ht))) htrue hfalse
    · exact .select ht htrue hfalse
    · exact .select (.value (ih hcond (.inr ⟨hselects, ht⟩))) htrue hfalse
  | whenTrue cond context other ih => exact .select hc.1 (ih hc.2.1 ht) hc.2.2
  | whenFalse cond other context ih => exact .select hc.1 hc.2.2 (ih hc.2.1 ht)

end Context

theorem Tree.composed_of_doubleComplement? {env : Environment} {lows : Nat → Prop} {t x : Tree}
    (h : t.doubleComplement? = some x) (bit : x.width = 1) (hx : x.Composed env lows) :
    t.Composed env lows := by
  cases t with
  | compare op lhs rhs => exact .doubled h bit hx
  | _ => cases h

namespace Environment

variable {env : Environment} {g : Graph} {store : Store} {bytes : Bytes} {e : NodeId} {code : Code}

/-- An expression around a double complement is lowered to code with its value, if the operand is
one bit wide or the double complement is the condition of a selection. -/
theorem eval_lower_fill (hd : env.types.overrides = ∅) (wf : g.WellFormed) (he : e < g.size)
    (hs : env.Describes store g bytes) {context : Context} {t x : Tree}
    (htree : g.tree e = context.fill t) (hc : context.Composed env)
    (hdouble : t.doubleComplement? = some x)
    (hx : (x.width = 1 ∧ x.Composed env fun _ => True) ∨ context.Selects ∧ x.Decides env)
    (h : env.lower g e = .ok code) :
    code.bits = g.width e ∧
      ∀ c, (context.fill t).eval bytes = .ok c → code.eval store = some c := by
  have hfilled : (context.fill t).Composed env fun _ => True := by
    apply Context.composed_fill hc
    rcases hx with ⟨bit, hx⟩ | ⟨hselects, hx⟩
    · exact .inl (Tree.composed_of_doubleComplement? hdouble bit hx)
    · exact .inr ⟨hselects, .doubled hdouble hx⟩
  rw [← htree] at hfilled ⊢
  have hgives := (lower_right hd wf he hs h).hasValue _ hfilled
  exact ⟨hgives.bits_eq, hgives.eval_eq⟩

/-- A sum with one of two constants, chosen by whether a field of two bytes is zero. The low byte of
the field is zero, the field is not. -/
theorem eval_lower_fill_of_choice :
    let field : Variable := ⟨"d", .unsigned 16⟩
    let env : Environment := { symbols := ({} : SymbolTable).declare "D" field }
    let store : Store := fun _ k => if k = 1 then 2 else 0
    let bytes : Bytes := fun _ k => some (if k = 1 then 2 else 0)
    let g : Graph :=
      { nodes := #[⟨.constant ⟨0, 32⟩, 32⟩, ⟨.read 0 0, 8⟩, ⟨.constant ⟨1, 32⟩, 32⟩, ⟨.read 0 2, 8⟩,
          ⟨.concat 3 1, 16⟩, ⟨.constant ⟨0, 16⟩, 16⟩, ⟨.compare .eq 5 4, 1⟩, ⟨.constant ⟨0, 1⟩, 1⟩,
          ⟨.compare .eq 7 6, 1⟩, ⟨.constant ⟨7, 8⟩, 8⟩, ⟨.constant ⟨9, 8⟩, 8⟩, ⟨.select 8 9 10, 8⟩,
          ⟨.constant ⟨3, 8⟩, 8⟩, ⟨.binary .add 12 11, 8⟩]
        roots := #[.symbolic "D" 2] }
    let context : Context := .binaryRight .add (.constant ⟨3, 8⟩)
      (.condition .hole (.constant ⟨7, 8⟩) (.constant ⟨9, 8⟩))
    let choice : Code := .choose (.var field) (.scalar .byte 7) (.scalar .byte 9)
    let code : Code := .binary .add (.scalar .byte 3) choice .byte
    env.types.overrides = ∅ ∧ g.WellFormed ∧ 13 < g.size ∧ env.Describes store g bytes ∧
      g.tree 13 = context.fill (g.tree 8) ∧ context.Composed env ∧
      (g.tree 8).doubleComplement? = some (g.tree 4) ∧ context.Selects ∧ (g.tree 4).Decides env ∧
      env.lower g 13 = .ok code ∧ (context.fill (g.tree 8)).eval bytes = .ok ⟨10, 8⟩ ∧
      code.bits = 8 ∧ code.eval store = some ⟨10, 8⟩ := by
  intro field env store bytes g context choice code
  have types : env.types.overrides = ∅ := rfl
  have wf : g.WellFormed := by decide +kernel
  have place : ∀ i, env.place? (.symbolic "D" 2) i = some (field, i) :=
    place?_of_symbol (by decide +kernel) (by decide +kernel)
  have describes : env.Describes store g bytes :=
    describes_of_symbol rfl place fun i byte hbyte => Option.some.inj hbyte
  have tree : g.tree 13 = context.fill (g.tree 8) := by decide +kernel
  have composed : context.Composed env := ⟨⟨trivial, .constant _, .constant _⟩, .constant _⟩
  have double : (g.tree 8).doubleComplement? = some (g.tree 4) := by decide +kernel
  have selects : context.Selects := .inl rfl
  have whole : field.Whole := ⟨⟨rfl, by decide, by decide⟩, by decide⟩
  have operand : g.tree 4 = .concat (.read (.symbolic "D" 2) (.constant ⟨1, 32⟩))
      (.read (.symbolic "D" 2) (.constant ⟨0, 32⟩)) := by decide +kernel
  have operandComposed : (g.tree 4).Composed env fun _ => True := by
    rw [operand]
    exact Tree.composed_of_symbol place whole (by decide)
  have decides : (g.tree 4).Decides env := .value operandComposed
  have lowered : env.lower g 13 = .ok code := by decide +kernel
  obtain ⟨bits, value⟩ := eval_lower_fill types wf (by decide) describes tree composed double
    (.inr ⟨selects, decides⟩) lowered
  have meaning : (context.fill (g.tree 8)).eval bytes = .ok ⟨10, 8⟩ := by decide +kernel
  exact ⟨types, wf, by decide, describes, tree, composed, double, selects, decides, lowered,
    meaning, bits, value _ meaning⟩

/-- A double complement of a field that is two is one, also as a number of 32 bits. Its code is a
cast of the field, and is two. -/
theorem lower_zeroExtend_of_wide_complement :
    let field : Variable := ⟨"d", .unsigned 16⟩
    let env : Environment := { symbols := ({} : SymbolTable).declare "D" field }
    let store : Store := fun _ k => if k = 0 then 2 else 0
    let bytes : Bytes := fun _ k => some (if k = 0 then 2 else 0)
    let g : Graph :=
      { nodes := #[⟨.constant ⟨0, 32⟩, 32⟩, ⟨.read 0 0, 8⟩, ⟨.constant ⟨1, 32⟩, 32⟩, ⟨.read 0 2, 8⟩,
          ⟨.concat 3 1, 16⟩, ⟨.constant ⟨0, 16⟩, 16⟩, ⟨.compare .eq 5 4, 1⟩, ⟨.constant ⟨0, 1⟩, 1⟩,
          ⟨.compare .eq 7 6, 1⟩, ⟨.zeroExtend 8, 32⟩]
        roots := #[.symbolic "D" 2] }
    let context : Context := .zeroExtend .hole 32
    let code : Code := .cast (.var field) (.unsigned 32)
    env.types.overrides = ∅ ∧ g.WellFormed ∧ 9 < g.size ∧ env.Describes store g bytes ∧
      g.tree 9 = context.fill (g.tree 8) ∧ context.Composed env ∧
      (g.tree 8).doubleComplement? = some (g.tree 4) ∧ ((g.tree 4).Composed env fun _ => True) ∧
      env.lower g 9 = .ok code ∧ (g.tree 9).eval bytes = .ok ⟨1, 32⟩ ∧
      code.eval store = some ⟨2, 32⟩ := by
  intro field env store bytes g context code
  have place : ∀ i, env.place? (.symbolic "D" 2) i = some (field, i) :=
    place?_of_symbol (by decide +kernel) (by decide +kernel)
  have whole : field.Whole := ⟨⟨rfl, by decide, by decide⟩, by decide⟩
  have operand : g.tree 4 = .concat (.read (.symbolic "D" 2) (.constant ⟨1, 32⟩))
      (.read (.symbolic "D" 2) (.constant ⟨0, 32⟩)) := by decide +kernel
  have composed : (g.tree 4).Composed env fun _ => True := by
    rw [operand]
    exact Tree.composed_of_symbol place whole (by decide)
  have describes : env.Describes store g bytes :=
    describes_of_symbol rfl place fun i byte hbyte => Option.some.inj hbyte
  exact ⟨rfl, by decide +kernel, by decide, describes, by decide +kernel, trivial,
    by decide +kernel, composed, by decide +kernel, by decide +kernel, by decide +kernel⟩

end Environment

end BitvectorCode
