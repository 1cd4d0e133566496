import BitvectorCode.Code.Simplify
import BitvectorCode.Code.Slice
import BitvectorCode.Proofs.Outcome
import Mathlib.Tactic.SplitIfs

/-!
# What simplifying and slicing make

Simplifying changes the top of a tree in one of four ways, and a slice is taken in one of five. The
operands of concats and casts can come to the top of a tree on the way, and no other parts can; a
property of these is kept as the tree is built, where the property of every part is too much to ask.
-/

namespace BitvectorCode.Code

def Everywhere (p : Code → Prop) : Code → Prop
  | constant type values => p (constant type values)
  | var v => p (var v)
  | read v type index => p (read v type index) ∧ index.Everywhere p
  | concat left right type => p (concat left right type) ∧ left.Everywhere p ∧ right.Everywhere p
  | select cond ifTrue ifFalse type =>
    p (select cond ifTrue ifFalse type) ∧
      cond.Everywhere p ∧ ifTrue.Everywhere p ∧ ifFalse.Everywhere p
  | cast inner type => p (cast inner type) ∧ inner.Everywhere p
  | not inner type => p (not inner type) ∧ inner.Everywhere p
  | binary op lhs rhs type => p (binary op lhs rhs type) ∧ lhs.Everywhere p ∧ rhs.Everywhere p

inductive Simplified (types : TypeContext) : Code → Code → Prop
  | same (code : Code) : Simplified types code code
  | read (v : Variable) (type : Ty) (index : Code) :
      Simplified types (.read v type index) (simplifyRead v type index)
  | merged {v : Variable} {lt rt type both : Ty} {li ri : Code} {start : Nat}
      (hbytes : rt.bits % 8 = 0) (hleft : li.value? = some (start + rt.bits / 8))
      (hright : ri.value? = some start) (hboth : types.typeFor (lt.bits + rt.bits) = .ok both) :
      Simplified types (concat (.read v lt li) (.read v rt ri) type)
        (simplifyRead v both (scalar ri.type start))
  | joined {left right : Code} {type both : Ty} {l r : Nat} (hleft : left.value? = some l)
      (hright : right.value? = some r) (hword : left.bits + right.bits ≤ 64)
      (hboth : types.typeFor (left.bits + right.bits) = .ok both) :
      Simplified types (concat left right type)
        (scalar both (if 64 ≤ right.bits then r else lowBits (l <<< right.bits) 64 ||| r))
  | uncast (inner : Code) : Simplified types (cast inner inner.type) inner

/-- `new` is what a slice of `width` bits from `offset` on, of type `target`, is taken to be. -/
inductive Sliced (offset width : Nat) (target : Ty) : Code → Code → Prop
  | var (v : Variable) : Sliced offset width target (.var v) (read v target (index (offset / 8)))
  | read {v : Variable} {type : Ty} {i : Code} {start : Nat} (hstart : i.value? = some start) :
      Sliced offset width target (.read v type i) (.read v target (index (start + offset / 8)))
  | constant {type : Ty} {values : List Nat} {new : Code}
      (hnew : sliceConstant type values offset width target = .ok new) :
      Sliced offset width target (.constant type values) new
  | shifted {code : Code} (hprimitive : code.type.isPrimitive = true) (hoffset : 0 < offset) :
      Sliced offset width target code
        (cast (binary .and (binary .shr code (scalar code.type offset) code.type)
          (scalar code.type (wordMask width)) code.type) target)
  | cut {code : Code} (hprimitive : code.type.isPrimitive = true) (hoffset : offset = 0) :
      Sliced offset width target code (cast code target)

variable {types : TypeContext} {code new left right : Code} {offset width : Nat} {target type : Ty}
variable {p q : Code → Prop}

theorem Everywhere.self (h : code.Everywhere p) : p code := by
  cases code with
  | constant type values | var v => exact h
  | _ => exact h.1

theorem Everywhere.imp (h : code.Everywhere p) (hp : ∀ part, p part → q part) :
    code.Everywhere q := by
  induction code with
  | constant type values | var v => exact hp _ h
  | read v type index ih | cast inner type ih | not inner type ih => exact ⟨hp _ h.1, ih h.2⟩
  | concat left right type ihl ihr | binary op left right type ihl ihr =>
    exact ⟨hp _ h.1, ihl h.2.1, ihr h.2.2⟩
  | select cond ifTrue ifFalse type ihc iht ihf =>
    exact ⟨hp _ h.1, ihc h.2.1, iht h.2.2.1, ihf h.2.2.2⟩

theorem mergeReads_cases {result : Except Error (Option Code)}
    (h : mergeReads types left right = result) :
    result = .ok none ∨
      ∃ v lt li rt ri start, left = read v lt li ∧ right = read v rt ri ∧
        lt.bits % 8 = 0 ∧ rt.bits % 8 = 0 ∧
        li.value? = some (start + rt.bits / 8) ∧ ri.value? = some start ∧
        (types.typeFor (lt.bits + rt.bits) >>= fun both =>
          .ok (some (simplifyRead v both (scalar ri.type start)))) = result := by
  unfold mergeReads at h
  split at h
  · next lv lt li rv rt ri =>
    split at h
    · exact .inl h.symm
    · next hsame =>
      obtain ⟨rfl, hl8, hr8⟩ : lv = rv ∧ lt.bits % 8 = 0 ∧ rt.bits % 8 = 0 := by
        simpa only [not_or, ne_eq, Decidable.not_not] using hsame
      split at h
      · next l r hlv hrv =>
        split at h
        · next hnext =>
          have hbytes : rt.bytes = rt.bits / 8 := by
            unfold Ty.bytes
            omega
          rw [hnext, hbytes] at hlv
          exact .inr ⟨lv, lt, li, rt, ri, r, rfl, rfl, hl8, hr8, hlv, hrv, h⟩
        · exact .inl h.symm
      · exact .inl h.symm
  · exact .inl h.symm

theorem joinConstants_cases {result : Except Error (Option Code)}
    (h : joinConstants types left right = result) :
    result = .ok none ∨
      ∃ l r, left.value? = some l ∧ right.value? = some r ∧ left.bits + right.bits ≤ 64 ∧
        (types.typeFor (left.bits + right.bits) >>= fun both =>
          .ok
            (some (scalar both
              (if 64 ≤ right.bits then r else lowBits (l <<< right.bits) 64 ||| r)))) =
            result := by
  unfold joinConstants at h
  split at h
  · next l r hleft hright =>
    dsimp only at h
    split at h
    · next hword => exact .inr ⟨l, r, hleft, hright, hword, h⟩
    · exact .inl h.symm
  · exact .inl h.symm

theorem simplified_of_simplify (h : code.simplify types = .ok new) : Simplified types code new := by
  unfold simplify at h
  cases code with
  | concat left right type =>
    obtain ⟨merged, hmerged, h⟩ := bind_eq_ok_iff.1 h
    obtain hnone | ⟨v, lt, li, rt, ri, start, rfl, rfl, -, hbytes, hleft, hright, hsome⟩ :=
      mergeReads_cases hmerged
    · cases hnone
      obtain ⟨joined, hjoined, h⟩ := bind_eq_ok_iff.1 h
      obtain hnone | ⟨l, r, hleft, hright, hword, hsome⟩ := joinConstants_cases hjoined
      · cases hnone
        cases h
        exact .same _
      · obtain ⟨both, hboth, hsome⟩ := bind_eq_ok_iff.1 hsome
        cases hsome
        cases h
        exact .joined hleft hright hword hboth
    · obtain ⟨both, hboth, hsome⟩ := bind_eq_ok_iff.1 hsome
      cases hsome
      cases h
      exact .merged hbytes hleft hright hboth
  | read v type index =>
    cases h
    exact .read v type index
  | cast inner type =>
    cases h
    split
    · next htype => exact htype ▸ .uncast inner
    · exact .same _
  | constant type values | var v | select cond ifTrue ifFalse type | not inner type
  | binary op lhs rhs type =>
    cases h
    exact .same _

theorem sliceConstant_eq_ok {type target : Ty} {values : List Nat}
    (h : sliceConstant type values offset width target = .ok new) :
    ∃ slice, new = constant target slice := by
  unfold sliceConstant at h
  cases type with
  | primitive bits signed =>
    cases h
    exact ⟨_, rfl⟩
  | array element count =>
    dsimp only at h
    split at h
    · cases h
    · split at h
      · cases h
      · split_ifs at h <;> cases h
        all_goals exact ⟨_, rfl⟩
  | pointer pointee | struct name fields size => cases h

theorem sliced_of_shiftAndMask (h : code.shiftAndMask offset width target = .ok new) :
    Sliced offset width target code new := by
  unfold shiftAndMask at h
  dsimp only at h
  split at h
  · cases h
  · next hprimitive =>
    have hprimitive : code.type.isPrimitive = true := by simpa using hprimitive
    split at h
    · next hoffset =>
      cases h
      exact .shifted hprimitive hoffset
    · next hoffset =>
      cases h
      exact .cut hprimitive (Nat.eq_zero_of_not_pos hoffset)

theorem sliced_of_slice (h : code.slice offset width target = .ok new) :
    Sliced offset width target code new := by
  cases code with
  | var v =>
    cases h
    exact .var v
  | constant type values => exact .constant h
  | read v type i =>
    cases hi : i.value? with
    | some start =>
      simp only [slice, hi] at h
      cases h
      exact .read hi
    | none =>
      simp only [slice, hi] at h
      exact sliced_of_shiftAndMask h
  | concat left right type | select cond ifTrue ifFalse type | cast inner type | not inner type
  | binary op lhs rhs type => exact sliced_of_shiftAndMask h

/-- The property holds of the code, and of the parts of it that can come to the top: the operands of
concats and of casts. -/
def Surface (p : Code → Prop) : Code → Prop
  | concat left right type => p (concat left right type) ∧ left.Surface p ∧ right.Surface p
  | cast inner type => p (cast inner type) ∧ inner.Surface p
  | code => p code

theorem Surface.self (h : code.Surface p) : p code := by
  cases code with
  | concat left right type | cast inner type => exact h.1
  | _ => exact h

theorem part_eq_or_inside {inner : Code} {o : Nat}
    (hpart : code.part offset width = .ok (inner, o)) :
    (inner = code ∧ o = offset) ∨ o + width ≤ inner.bits := by
  induction code generalizing offset with
  | concat left right type ihl ihr =>
    unfold Code.part at hpart
    split at hpart
    · cases hpart
      exact .inl ⟨rfl, rfl⟩
    · split at hpart
      · next hlow =>
        rcases ihr hpart with ⟨rfl, rfl⟩ | hinside
        · exact .inr hlow
        · exact .inr hinside
      · split at hpart
        · next hhigh =>
          rcases ihl hpart with ⟨rfl, rfl⟩ | hinside
          · exact .inr hhigh.2
          · exact .inr hinside
        · cases hpart
  | _ =>
    cases hpart
    exact .inl ⟨rfl, rfl⟩

theorem part_of_concats {holds : Code → Prop} {inner : Code} {o : Nat}
    (pass : ∀ left right type, holds (concat left right type) → holds left ∧ holds right)
    (h : holds code) (hpart : code.part offset width = .ok (inner, o)) : holds inner := by
  induction code generalizing offset with
  | concat left right type ihl ihr =>
    obtain ⟨hl, hr⟩ := pass left right type h
    unfold Code.part at hpart
    split at hpart
    · cases hpart
      exact h
    · split at hpart
      · exact ihr hr hpart
      · split at hpart
        · exact ihl hl hpart
        · cases hpart
  | _ =>
    cases hpart
    exact h

theorem Surface.part {inner : Code} {o : Nat} (h : code.Surface p)
    (hpart : code.part offset width = .ok (inner, o)) : inner.Surface p :=
  part_of_concats (fun _ _ _ h => h.2) h hpart

theorem Everywhere.part {inner : Code} {o : Nat} (h : code.Everywhere p)
    (hpart : code.part offset width = .ok (inner, o)) : inner.Everywhere p :=
  part_of_concats (fun _ _ _ h => h.2) h hpart

end BitvectorCode.Code
