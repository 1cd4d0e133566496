import BitvectorCode.Proofs.Code.Bounds
import BitvectorCode.Proofs.Code.Simplify

/-!
# The value of simplified code

Simplifying puts code of the same value in the place of a concat, a read or a cast, whatever stands
below it. Of the meaning of code only this much is used: how variables and reads get their values
from a store, that the left operand of a concat lies above the right one, and that a cast to the
same type changes nothing. What the other nodes are worth is left open.
-/

namespace BitvectorCode

namespace TypeContext

def DeclaresPrimitives (types : TypeContext) : Prop :=
  ∀ (width : Nat) (type : Ty), types.overrides[width]? = some type → type.isPrimitive = true

theorem declaresPrimitives_empty : DeclaresPrimitives {} := by
  intro width type h
  simp at h

variable {types new : TypeContext} {width : Nat} {type : Ty}

theorem DeclaresPrimitives.declare (hp : types.DeclaresPrimitives) (htype : type.isPrimitive = true)
    (h : types.declare width type = .ok new) : new.DeclaresPrimitives := by
  unfold TypeContext.declare at h
  split at h
  · cases h
    intro w t ht
    rw [Std.TreeMap.getElem?_insert] at ht
    split at ht
    · cases ht
      exact htype
    · exact hp w t ht
  · cases h

theorem DeclaresPrimitives.typeFor_word (hp : types.DeclaresPrimitives) (hs : types.Sized)
    (hword : width ≤ 64) (h : types.typeFor width = .ok type) :
    ∃ signed, type = .primitive width signed := by
  have hprimitive : type.isPrimitive = true := by
    unfold typeFor at h
    split at h
    · next known =>
      cases h
      exact hp width type known
    · split at h
      · cases h
      · cases h
        rfl
  cases type with
  | primitive bits signed =>
    have hbits : bits = width := hs.bits_typeFor h
    exact ⟨signed, hbits ▸ rfl⟩
  | pointer pointee | struct name fields size | array element count => cases hprimitive

end TypeContext

namespace Code

/-- The value of code over a store. What a node is worth that is no number, no access to a variable,
no concat and no cast to the type it has, is up to `other`. -/
def valueOver (store : Store) (other : Code → Option Constant) : Code → Option Constant
  | constant (.primitive bits _) [n] => some ⟨n, bits⟩
  | var v => some (store.read v 0 v.type.bits)
  | read v type index => do
    let i ← index.valueOver store other
    some (store.read v i.value type.bits)
  | concat left right _ => do
    let l ← left.valueOver store other
    let r ← right.valueOver store other
    some (l.concat r)
  | cast inner type =>
    if inner.type = type then inner.valueOver store other else other (cast inner type)
  | code => other code

/-- A constant of an integer type is one number that fits the type, and one of an array type has a
number for each element. No other type has constants. -/
def ConstantShaped : Code → Prop
  | constant (.primitive bits _) values => ∃ n < 2 ^ bits, values = [n]
  | constant (.array _ count) values => values.length = count
  | constant _ _ => False
  | _ => True

/-- Of two reads of one variable at known indices, the right one ends at an index that a word can
hold. -/
def EndsInWord : Code → Code → Prop
  | read v _ li, read w type ri =>
    v = w → li.value?.isSome → ∀ i, ri.value? = some i → i + type.bytes < UInt64.size
  | _, _ => True

/-- A concat is as wide as its operands together. A word can hold its width, and the index that
decides whether its operands are neighbours. -/
def JoinsWidths : Code → Prop
  | concat left right type =>
    type.bits = left.bits + right.bits ∧ type.bits < UInt64.size ∧ left.EndsInWord right
  | _ => True

/-- The operands of a concat become one: neighbouring reads of whole bytes of one variable, or two
numbers of together at most one word. -/
def Merges (left right : Code) : Prop :=
  (∃ v lt li rt ri start, left = read v lt li ∧ right = read v rt ri ∧
    lt.bits % 8 = 0 ∧ rt.bits % 8 = 0 ∧
    li.value? = some (start + rt.bits / 8) ∧ ri.value? = some start) ∨
  (left.value?.isSome = true ∧ right.value?.isSome = true ∧ left.bits + right.bits ≤ 64)

/-- If the operands of a concat become one, there is a type for it. -/
def HasMergedType (types : TypeContext) : Code → Prop
  | concat left right _ =>
    left.Merges right → ∃ type, types.typeFor (left.bits + right.bits) = .ok type
  | _ => True

variable {types : TypeContext} {store : Store} {other : Code → Option Constant}
variable {code new left right index : Code} {v : Variable} {type both : Ty} {n : Nat} {err : Error}

/-- Where values fit the nodes they are the values of, a cast to the same type changes nothing, and
the meaning of code is among the values that are possible. -/
theorem valueOver_eval
    (h : code.Everywhere fun part => ∀ c, part.eval store = some c → c.bits = part.bits ∧ c.Valid) :
    code.valueOver store (eval store) = code.eval store := by
  induction code with
  | constant type values =>
    unfold valueOver
    split
    · next bits signed n hcode =>
      cases hcode
      simp [eval, Ty.literal, Ty.bits, Nat.ofDigits_singleton]
    all_goals first | rfl | contradiction
  | var v => rfl
  | read v type index ih => simp only [valueOver, eval, ih h.2]
  | concat left right type ihl ihr => simp only [valueOver, eval, ihl h.2.1, ihr h.2.2]
  | cast inner type ih =>
    simp only [valueOver]
    split
    · next htype =>
      subst htype
      rw [ih h.2]
      cases hinner : inner.eval store with
      | none => simp [eval, hinner]
      | some c =>
        obtain ⟨hbits, hvalid⟩ := h.2.self c hinner
        have hbits : inner.type.bits = c.bits := hbits.symm
        simp [eval, hinner, hbits, Constant.zeroExtend_self hvalid, Constant.signExtend_self hvalid]
    · rfl
  | select cond ifTrue ifFalse type | not inner type | binary op lhs rhs type => rfl

theorem ConstantShaped.eq_constant (h : code.ConstantShaped) (hn : code.value? = some n) :
    ∃ bits signed, code = constant (.primitive bits signed) [n] ∧ n < 2 ^ bits := by
  cases code with
  | constant type values =>
    cases type with
    | primitive bits signed =>
      obtain ⟨m, hm, rfl⟩ := h
      cases hn
      exact ⟨bits, signed, rfl, hm⟩
    | array element count => cases hn
    | pointer pointee | struct name fields size => exact h.elim
  | _ => cases hn

theorem valueOver_simplifyRead (hi : index.ConstantShaped) :
    (simplifyRead v type index).valueOver store other =
    (read v type index).valueOver store other := by
  unfold simplifyRead
  split
  · next hwhole =>
    obtain ⟨hzero, hbits⟩ := hwhole
    obtain ⟨bits, signed, rfl, -⟩ := hi.eq_constant hzero
    simp [valueOver, hbits]
  · rfl

theorem valueOver_merged {lt rt : Ty} {li ri : Code} {start : Nat} (hli : li.ConstantShaped)
    (hri : ri.ConstantShaped) (hbytes : rt.bits % 8 = 0)
    (hleft : li.value? = some (start + rt.bits / 8)) (hright : ri.value? = some start)
    (hboth : both.bits = lt.bits + rt.bits) :
    (simplifyRead v both (scalar ri.type start)).valueOver store other =
      (concat (read v lt li) (read v rt ri) type).valueOver store other := by
  obtain ⟨lbits, lsigned, rfl, -⟩ := hli.eq_constant hleft
  obtain ⟨rbits, rsigned, rfl, -⟩ := hri.eq_constant hright
  calc (simplifyRead v both (scalar (.primitive rbits rsigned) start)).valueOver store other
    _ = (read v both (scalar (.primitive rbits rsigned) start)).valueOver store other :=
      valueOver_simplifyRead hri
    _ = some (store.read v start (lt.bits + rt.bits)) := by simp [scalar, valueOver, hboth]
    _ = some ((store.read v (start + rt.bits / 8) lt.bits).concat
      (store.read v start rt.bits)) := by
      rw [Store.concat_read hbytes]

theorem valueOver_joined {l r : Nat} {signed : Bool} (hl : left.ConstantShaped)
    (hr : right.ConstantShaped) (hleft : left.value? = some l) (hright : right.value? = some r)
    (hword : left.bits + right.bits ≤ 64) :
    (scalar (.primitive (left.bits + right.bits) signed)
        (if 64 ≤ right.bits then r else lowBits (l <<< right.bits) 64 ||| r)).valueOver
          store other =
      (concat left right type).valueOver store other := by
  obtain ⟨lb, lsigned, rfl, hlt⟩ := hl.eq_constant hleft
  obtain ⟨rb, rsigned, rfl, hrt⟩ := hr.eq_constant hright
  change lb + rb ≤ 64 at hword
  change some (Constant.mk (if 64 ≤ rb then r else lowBits (l <<< rb) 64 ||| r) (lb + rb)) =
    some ((Constant.mk l lb).concat ⟨r, rb⟩)
  -- the shift loses nothing: a right operand of a whole word has a left one without bits
  have hvalue := joined_lt hlt hrt
  rw [joined_eq hlt hword] at hvalue ⊢
  exact congrArg some (Constant.ofNat_eq_self hvalue).symm

theorem Simplified.keeps_value (hs : types.Sized) (hp : types.DeclaresPrimitives)
    (hshaped : code.Everywhere ConstantShaped) (hjoins : code.JoinsWidths)
    (hnew : Simplified types code new) :
    new.bits = code.bits ∧ ∀ store other,
      new.valueOver store other = code.valueOver store other := by
  cases hnew with
  | same => exact ⟨rfl, fun _ _ => rfl⟩
  | read v type index => exact ⟨bits_simplifyRead, fun _ _ => valueOver_simplifyRead hshaped.2.self⟩
  | @merged v lt rt type both li ri start hbytes hleft hright hboth =>
    obtain ⟨-, ⟨-, hli⟩, -, hri⟩ := hshaped
    have hwidth := hs.bits_typeFor hboth
    refine ⟨?_, fun _ _ => valueOver_merged hli.self hri.self hbytes hleft hright hwidth⟩
    calc (simplifyRead v both (scalar ri.type start)).bits
      _ = both.bits := bits_simplifyRead
      _ = lt.bits + rt.bits := hwidth
      _ = type.bits := hjoins.1.symm
  | @joined left right type both l r hleft hright hword hboth =>
    obtain ⟨-, hl, hr⟩ := hshaped
    obtain ⟨signed, rfl⟩ := hp.typeFor_word hs hword hboth
    exact ⟨hjoins.1.symm, fun _ _ => valueOver_joined hl.self hr.self hleft hright hword⟩
  | uncast inner => exact ⟨rfl, fun _ _ => (if_pos rfl).symm⟩

theorem mergeReads_eq_error (h : mergeReads types left right = .error err) :
    left.Merges right ∧ types.typeFor (left.bits + right.bits) = .error err := by
  obtain hnone | ⟨v, lt, li, rt, ri, start, rfl, rfl, hl8, hr8, hleft, hright, hfails⟩ :=
    mergeReads_cases h
  · cases hnone
  · refine ⟨.inl ⟨v, lt, li, rt, ri, start, rfl, rfl, hl8, hr8, hleft, hright⟩, ?_⟩
    exact (bind_eq_error_iff.1 hfails).resolve_right nofun

theorem joinConstants_eq_error (h : joinConstants types left right = .error err) :
    left.Merges right ∧ types.typeFor (left.bits + right.bits) = .error err := by
  obtain hnone | ⟨l, r, hleft, hright, hword, hfails⟩ := joinConstants_cases h
  · cases hnone
  · refine ⟨.inr ⟨Option.isSome_of_eq_some hleft, Option.isSome_of_eq_some hright, hword⟩, ?_⟩
    exact (bind_eq_error_iff.1 hfails).resolve_right nofun

theorem simplify_eq_error (h : code.simplify types = .error err) :
    ∃ left right type, code = concat left right type ∧ left.Merges right ∧
      types.typeFor (left.bits + right.bits) = .error err := by
  cases code with
  | concat left right type =>
    refine ⟨left, right, type, rfl, ?_⟩
    rcases bind_eq_error_iff.1 h with hmerge | ⟨merged, -, hrest⟩
    · exact mergeReads_eq_error hmerge
    · cases merged with
      | some merged => cases hrest
      | none =>
        rcases bind_eq_error_iff.1 hrest with hjoin | ⟨joined, -, hpure⟩
        · exact joinConstants_eq_error hjoin
        · cases hpure
  | _ => cases h

theorem HasMergedType.simplify (h : code.HasMergedType types) :
    ∃ new, code.simplify types = .ok new := by
  cases hresult : code.simplify types with
  | ok new => exact ⟨new, rfl⟩
  | error err =>
    obtain ⟨left, right, type, rfl, hmerges, hfails⟩ := simplify_eq_error hresult
    obtain ⟨both, hboth⟩ := h hmerges
    cases hboth.symm.trans hfails

/-- Simplifying succeeds where operands that become one have a type, and changes neither the bits
nor the value of code. -/
theorem simplify_keeps_value (hs : types.Sized) (hp : types.DeclaresPrimitives)
    (hshaped : code.Everywhere ConstantShaped) (hjoins : code.JoinsWidths) :
    (code.HasMergedType types → ∃ new, code.simplify types = .ok new) ∧
      ∀ new, code.simplify types = .ok new → new.bits = code.bits ∧
        ∀ store other, new.valueOver store other = code.valueOver store other :=
  ⟨HasMergedType.simplify, fun _ hnew =>
    (simplified_of_simplify hnew).keeps_value hs hp hshaped hjoins⟩

/-- Two neighbouring bytes of a variable of 16 bits become the variable, under a context that has a
signed type for this width. -/
theorem simplify_keeps_value_of_byte_reads :
    let port : Variable := ⟨"port", .unsigned 16⟩
    let code := concat (read port .byte (.index 1)) (read port .byte (.index 0)) (.signed 16)
    let types : TypeContext := ⟨(∅ : Std.TreeMap Nat Ty).insert 16 (.signed 16)⟩
    types.Sized ∧ types.DeclaresPrimitives ∧ code.Everywhere ConstantShaped ∧ code.JoinsWidths ∧
      code.HasMergedType types ∧ code.simplify types = .ok (var port) ∧
      (var port).bits = code.bits ∧
      ∀ store other, (var port).valueOver store other = code.valueOver store other := by
  intro port code types
  have declared : TypeContext.declare {} 16 (.signed 16) = .ok types := rfl
  have sized : types.Sized := TypeContext.sized_empty.declare declared
  have primitive : types.DeclaresPrimitives :=
    TypeContext.declaresPrimitives_empty.declare rfl declared
  have indices : ∀ i < 2 ^ 32, (Code.index i).ConstantShaped := fun i hi => ⟨i, hi, rfl⟩
  have shaped : code.Everywhere ConstantShaped :=
    ⟨trivial, ⟨trivial, indices 1 (by decide)⟩, trivial, indices 0 (by decide)⟩
  have known : code.HasMergedType types := fun _ => ⟨.signed 16, rfl⟩
  have simplified : code.simplify types = .ok (var port) := rfl
  have joins : code.JoinsWidths := ⟨rfl, by decide, by rintro - - _ ⟨⟩; decide⟩
  have keeps := simplify_keeps_value sized primitive shaped joins
  exact ⟨sized, primitive, shaped, joins, known, simplified, keeps.2 _ simplified⟩

end Code

end BitvectorCode
