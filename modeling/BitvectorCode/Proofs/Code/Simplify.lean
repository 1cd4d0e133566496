import BitvectorCode.Proofs.Code.Cases
import BitvectorCode.Proofs.Code.Meaning
import Mathlib.Data.Nat.Bitwise

/-!
# Simplified code

Lowered code is of a certain shape: its types are unsigned integers of one word or arrays of bytes,
constants fit, reads lie inside their variables, and a concat is as wide as its operands together.
Code of this shape has values that fit, and simplifying it keeps the shape, the bits and the values.
-/

namespace BitvectorCode

/-- The types that widths have when no other is declared. -/
def Ty.Plain : Ty → Prop
  | primitive bits signed => signed = false ∧ 0 < bits ∧ bits ≤ 64
  | array element count => element = .byte ∧ 0 < count
  | _ => False

namespace Ty.Plain

variable {t : Ty}

theorem bits_pos (h : t.Plain) : 0 < t.bits := by
  cases t with
  | primitive bits signed => exact h.2.1
  | array element count =>
    rw [h.1]
    exact Nat.mul_pos (by decide) h.2
  | pointer pointee | struct name fields size => cases h

theorem digitBits_pos (h : t.Plain) : 0 < t.digitBits := by
  cases t with
  | primitive bits signed => exact h.2.1
  | array element count =>
    rw [h.1]
    exact Nat.succ_pos 7
  | pointer pointee | struct name fields size => cases h

theorem isSigned_eq (h : t.Plain) : t.isSigned = false := by
  cases t with
  | primitive bits signed => exact h.1
  | array element count => rfl
  | pointer pointee | struct name fields size => cases h

end Ty.Plain

def Variable.Whole (v : Variable) : Prop := v.type.Plain ∧ v.type.bits % 8 = 0

theorem Ty.bits_array_byte {width : Nat} (h : width % 8 = 0) :
    (Ty.array .byte (width / 8)).bits = width := by
  change 8 * (width / 8) = width
  omega

theorem TypeContext.typeFor_eq_ok {types : TypeContext} (hd : types.overrides = ∅) {width : Nat}
    {type : Ty} (h : types.typeFor width = .ok type) :
    (0 < width ∧ width ≤ 64 ∧ type = .unsigned width) ∨
      (64 < width ∧ width % 8 = 0 ∧ type = .array .byte (width / 8)) := by
  unfold typeFor at h
  rw [hd] at h
  by_cases h0 : width = 0
  · simp [h0] at h
  · by_cases h64 : width ≤ 64
    · simp [h0, h64] at h
      exact .inl ⟨Nat.pos_of_ne_zero h0, h64, h.symm⟩
    · by_cases h8 : width % 8 = 0
      · simp [h0, h64, h8] at h
        exact .inr ⟨Nat.not_le.1 h64, h8, h.symm⟩
      · simp [h0, h64, h8] at h

theorem TypeContext.typeFor_plain {types : TypeContext} (hd : types.overrides = ∅) {width : Nat}
    {type : Ty} (h : types.typeFor width = .ok type) : type.Plain ∧ type.bits = width := by
  rcases typeFor_eq_ok hd h with ⟨hpos, hle, rfl⟩ | ⟨hlt, h8, rfl⟩
  · exact ⟨⟨rfl, hpos, hle⟩, rfl⟩
  · exact ⟨⟨rfl, by omega⟩, Ty.bits_array_byte h8⟩

theorem TypeContext.typeFor_of_le {types : TypeContext} (hd : types.overrides = ∅) {width : Nat}
    {type : Ty} (hle : width ≤ 64) (h : types.typeFor width = .ok type) :
    type = .unsigned width := by
  rcases typeFor_eq_ok hd h with ⟨-, -, ht⟩ | ⟨hwide, -, -⟩
  · exact ht
  · omega

namespace Code

/-- The index is `start`, however it is written. -/
def IsIndex (store : Store) (index : Code) (start : Nat) : Prop :=
  (∃ i, index.eval store = some i ∧ i.value = start) ∧ ∀ i, index.value? = some i → i = start

/-- The shape of lowered code, where `lows` says which widths the right operand of a concat may
have. Operands of operators and the conditions of selections are only looked at when the code is
evaluated, and may have any shape. -/
def Ok (lows : Nat → Prop) (store : Store) : Code → Prop
  | constant type values =>
    type.Plain ∧ values.length * type.digitBits = type.bits ∧ ∀ n ∈ values, n < 2 ^ type.digitBits
  | var v => v.Whole
  | read v type index =>
    v.Whole ∧ type.Plain ∧ ∃ start, index.IsIndex store start ∧ 8 * start + type.bits ≤ v.type.bits
  | concat left right type =>
    type.Plain ∧ left.Ok lows store ∧ right.Ok lows store ∧ type.bits = left.bits + right.bits ∧
      lows right.bits
  | select _ ifTrue ifFalse type =>
    ifTrue.Ok lows store ∧ ifFalse.Ok lows store ∧ type = ifTrue.type ∧ ifFalse.bits = ifTrue.bits
  | cast inner type => inner.Ok lows store ∧ type.Plain
  | not _ type | binary _ _ _ type => type.Plain

variable {lows lows' : Nat → Prop} {store : Store} {code new : Code} {c : Constant} {w : Nat}
variable {types : TypeContext}

theorem Ok.weaken (h : code.Ok lows store) (hl : ∀ n, lows n → lows' n) : code.Ok lows' store := by
  induction code with
  | concat left right type ihl ihr =>
    obtain ⟨hplain, hleft, hright, hbits, hlow⟩ := h
    exact ⟨hplain, ihl hleft, ihr hright, hbits, hl _ hlow⟩
  | select cond ifTrue ifFalse type _ iht ihf =>
    obtain ⟨ht, hf, htype, hbits⟩ := h
    exact ⟨iht ht, ihf hf, htype, hbits⟩
  | cast inner type ih => exact ⟨ih h.1, h.2⟩
  | _ => exact h

theorem Ok.plain (h : code.Ok lows store) : code.type.Plain := by
  induction code with
  | constant type values => exact h.1
  | var v => exact h.1
  | read v type index => exact h.2.1
  | concat left right type => exact h.1
  | select cond ifTrue ifFalse type _ iht _ =>
    obtain ⟨ht, -, rfl, -⟩ := h
    exact iht ht
  | cast inner type => exact h.2
  | not inner type | binary op lhs rhs type => exact h

theorem eval_concat_eq_some_iff {left right : Code} {type : Ty} :
    (concat left right type).eval store = some c ↔
      ∃ l r, left.eval store = some l ∧ right.eval store = some r ∧ l.concat r = c := by
  simp [eval, Option.bind_eq_some_iff]

end Code

theorem CodeOp.eval_fits {op : CodeOp} {signed : Bool} {l r c : Constant} {bits : Nat}
    (h : op.eval signed l r bits = some c) : c.bits = bits ∧ c.Valid := by
  have hnat : ∀ n, (Constant.ofNat n bits).bits = bits ∧ (Constant.ofNat n bits).Valid :=
    fun n => ⟨rfl, Constant.ofNat_valid n bits⟩
  have hint : ∀ i, (Constant.ofInt i bits).bits = bits ∧ (Constant.ofInt i bits).Valid :=
    fun i => ⟨rfl, Constant.ofBitVec_valid _⟩
  cases op with
  | div | mod =>
    simp only [eval] at h
    split at h
    · cases h
    · cases h
      exact hint _
  | sub | shr =>
    cases h
    exact hint _
  | _ =>
    cases h
    exact hnat _

theorem Ty.literal_valid {type : Ty} {values : List Nat} (hp : type.Plain)
    (hlen : values.length * type.digitBits = type.bits) (h : ∀ n ∈ values, n < 2 ^ type.digitBits) :
    (type.literal values).Valid := by
  have hlt := ofDigits_lt hp.digitBits_pos h
  rwa [hlen] at hlt

namespace Code

variable {lows lows' : Nat → Prop} {store : Store} {code new : Code} {c : Constant} {w : Nat}
variable {types : TypeContext}

theorem Ok.eval_fits (h : code.Ok lows store) (hc : code.eval store = some c) :
    c.bits = code.bits ∧ c.Valid := by
  induction code generalizing c with
  | constant type values =>
    cases hc
    exact ⟨rfl, Ty.literal_valid h.1 h.2.1 h.2.2⟩
  | var v =>
    cases hc
    exact ⟨rfl, Store.read_valid⟩
  | read v type index =>
    obtain ⟨i, -, hi⟩ := Option.bind_eq_some_iff.1 hc
    cases hi
    exact ⟨rfl, Store.read_valid⟩
  | concat left right type ihl ihr =>
    obtain ⟨-, hl, hr, hbits, -⟩ := h
    obtain ⟨l, r, hlv, hrv, rfl⟩ := eval_concat_eq_some_iff.1 hc
    refine ⟨?_, Constant.ofNat_valid _ _⟩
    rw [Constant.bits_concat, (ihl hl hlv).1, (ihr hr hrv).1]
    exact hbits.symm
  | select cond ifTrue ifFalse type _ iht ihf =>
    obtain ⟨ht, hf, rfl, hbits⟩ := h
    obtain ⟨b, -, hb⟩ := Option.bind_eq_some_iff.1 hc
    split at hb
    · obtain ⟨hfb, hfv⟩ := ihf hf hb
      exact ⟨hfb.trans hbits, hfv⟩
    · exact iht ht hb
  | cast inner type =>
    obtain ⟨d, -, hd⟩ := Option.bind_eq_some_iff.1 hc
    split at hd <;> cases hd
    · exact Constant.signExtend_fits
    · exact ⟨rfl, Constant.ofNat_valid _ _⟩
  | not inner type =>
    obtain ⟨d, -, hd⟩ := Option.bind_eq_some_iff.1 hc
    cases hd
    exact ⟨rfl, Constant.ofNat_valid _ _⟩
  | binary op lhs rhs type =>
    obtain ⟨l, -, hl⟩ := Option.bind_eq_some_iff.1 hc
    obtain ⟨r, -, hr⟩ := Option.bind_eq_some_iff.1 hl
    exact CodeOp.eval_fits hr

theorem Ok.eval_of_value? (h : code.Ok lows store) {n : Nat} (hn : code.value? = some n) :
    code.eval store = some ⟨n, code.bits⟩ ∧ n < 2 ^ code.bits ∧ code.bits ≤ 64 := by
  cases code with
  | constant type values =>
    cases type with
    | primitive bits signed =>
      obtain ⟨⟨-, hpos, hle⟩, hlen, hlt⟩ := h
      have hone : values.length = 1 := Nat.eq_of_mul_eq_mul_right hpos
        (by rw [Nat.one_mul]; exact hlen)
      obtain ⟨v, rfl⟩ := List.length_eq_one_iff.1 hone
      cases hn
      have hv : n < 2 ^ bits := hlt n (List.mem_singleton_self n)
      exact ⟨by simp [eval, Ty.literal, Nat.ofDigits_singleton]; rfl, hv, hle⟩
    | array element count => cases hn
    | pointer pointee | struct name fields size => exact h.1.elim
  | _ => cases hn

/-- Code of the right shape and `bits` bits that has every value it is asked for. -/
structure Gives (lows : Nat → Prop) (store : Store) (code : Code) (bits : Nat)
    (asked : Constant → Prop) :
    Prop where
  ok : code.Ok lows store
  bits_eq : code.bits = bits
  eval_eq : ∀ c, asked c → code.eval store = some c

namespace Gives

variable {asked asked' : Constant → Prop}

theorem of_ok (h : code.Ok lows store) : code.Gives lows store code.bits fun c =>
    code.eval store = some c :=
  ⟨h, rfl, fun _ hc => hc⟩

theorem mono (h : code.Gives lows store w asked) (ha : ∀ c, asked' c → asked c) :
    code.Gives lows store w asked' :=
  ⟨h.ok, h.bits_eq, fun c hc => h.eval_eq c (ha c hc)⟩

theorem weaken (h : code.Gives lows store w asked) (hl : ∀ n, lows n → lows' n) :
    code.Gives lows' store w asked :=
  ⟨h.ok.weaken hl, h.bits_eq, h.eval_eq⟩

theorem fits (h : code.Gives lows store w asked) (hc : asked c) : c.bits = w ∧ c.Valid := by
  have hfits := h.ok.eval_fits (h.eval_eq c hc)
  exact ⟨hfits.1.trans h.bits_eq, hfits.2⟩

theorem replace (h : code.Gives lows store w asked)
    (hn : new.Gives lows store code.bits fun c => code.eval store = some c) :
    new.Gives lows store w asked :=
  ⟨hn.ok, hn.bits_eq.trans h.bits_eq, fun c hc => hn.eval_eq c (h.eval_eq c hc)⟩

end Gives

variable {v : Variable} {type : Ty} {index : Code}

theorem eval_read {start : Nat} (h : index.IsIndex store start) :
    (read v type index).eval store = some (store.read v start type.bits) := by
  obtain ⟨i, hi, rfl⟩ := h.1
  simp [eval, hi]

theorem isIndex_scalar (type : Ty) (n : Nat) : (scalar type n).IsIndex store n := by
  constructor
  · exact ⟨type.literal [n], rfl, Nat.ofDigits_singleton⟩
  · intro i hi
    cases type <;> cases hi
    all_goals rfl

theorem eval_scalar {bits n : Nat} :
    (scalar (.unsigned bits) n).eval store = some ⟨n, bits⟩ := by
  simp [scalar, eval, Ty.literal, Ty.bits, Ty.unsigned, Nat.ofDigits_singleton]

theorem scalar_gives {bits n : Nat} (hpos : 0 < bits) (hle : bits ≤ 64) (hn : n < 2 ^ bits) :
    (scalar (.unsigned bits) n).Gives lows store bits fun c => ⟨n, bits⟩ = c := by
  have hfits : ∀ m ∈ [n], m < 2 ^ bits := by
    intro m hm
    rw [List.mem_singleton.1 hm]
    exact hn
  refine ⟨⟨⟨rfl, hpos, hle⟩, Nat.one_mul bits, hfits⟩, rfl, ?_⟩
  rintro c rfl
  exact eval_scalar

theorem bytes_gives {values : List Nat} (hpos : 0 < w) (hlen : values.length * 8 = w)
    (h : ∀ n ∈ values, n < 2 ^ 8) :
    (constant (.array .byte (w / 8)) values).Gives lows store w
      fun c => ⟨Nat.ofDigits (2 ^ 8) values, w⟩ = c := by
  have hbits : (Ty.array .byte (w / 8)).bits = w := Ty.bits_array_byte (by omega)
  refine ⟨⟨⟨rfl, by omega⟩, hlen.trans hbits.symm, h⟩, hbits, ?_⟩
  rintro c rfl
  rw [eval, Ty.literal, hbits]
  rfl

theorem bits_simplifyRead : (simplifyRead v type index).bits = type.bits := by
  unfold simplifyRead
  split
  · next whole => exact whole.2.symm
  · rfl

theorem simplifyRead_gives (h : (read v type index).Ok lows store) :
    (simplifyRead v type index).Gives lows store type.bits
      fun c => (read v type index).eval store = some c := by
  unfold simplifyRead
  split
  · next hwhole =>
    obtain ⟨hzero, hbits⟩ := hwhole
    obtain ⟨hv, -, start, hstart, -⟩ := h
    have h0 : 0 = start := hstart.2 0 hzero
    refine ⟨hv, hbits.symm, ?_⟩
    intro c hc
    rw [eval_read hstart, ← h0, hbits] at hc
    exact hc
  · exact .of_ok h

theorem merged_gives (hd : types.overrides = ∅) {lt rt both : Ty} {li ri : Code} {start : Nat}
    (hok : (concat (.read v lt li) (.read v rt ri) type).Ok lows store) (hbytes : rt.bits % 8 = 0)
    (hleft : li.value? = some (start + rt.bits / 8)) (hright : ri.value? = some start)
    (hboth : types.typeFor (lt.bits + rt.bits) = .ok both) :
    (simplifyRead v both (scalar ri.type start)).Gives lows store (lt.bits + rt.bits)
      fun c => (concat (.read v lt li) (.read v rt ri) type).eval store = some c := by
  obtain ⟨-, ⟨hv, -, ls, hls, hin⟩, ⟨-, -, rs, hrs, -⟩, -, -⟩ := hok
  obtain ⟨hplain, hbits⟩ := TypeContext.typeFor_plain hd hboth
  have hl : start + rt.bits / 8 = ls := hls.2 _ hleft
  have hr : start = rs := hrs.2 start hright
  have hread : (Code.read v both (scalar ri.type start)).Ok lows store :=
    ⟨hv, hplain, start, isIndex_scalar _ _, by omega⟩
  have heval : ∀ c, (concat (.read v lt li) (.read v rt ri) type).eval store = some c →
      (Code.read v both (scalar ri.type start)).eval store = some c := by
    intro c hc
    obtain ⟨lc, rc, hlc, hrc, rfl⟩ := eval_concat_eq_some_iff.1 hc
    rw [eval_read hls] at hlc
    rw [eval_read hrs] at hrc
    cases hlc
    cases hrc
    rw [eval_read (isIndex_scalar _ _), hbits, ← hl, ← hr, Store.concat_read hbytes]
  exact hbits ▸ (simplifyRead_gives hread).mono heval

theorem joined_lt {l r lb rb : Nat} (hl : l < 2 ^ lb) (hr : r < 2 ^ rb) :
    (if 64 ≤ rb then r else lowBits (l <<< rb) 64 ||| r) < 2 ^ (lb + rb) := by
  have hr' : r < 2 ^ (lb + rb) :=
    Nat.lt_of_lt_of_le hr (Nat.pow_le_pow_right (by decide) (by omega))
  split
  · exact hr'
  · rw [lowBits_eq_mod]
    exact Nat.or_lt_two_pow (Nat.lt_of_le_of_lt (Nat.mod_le _ _) (Nat.shiftLeft_lt hl)) hr'

theorem joined_eq {l r lb rb : Nat} (hl : l < 2 ^ lb) (hword : lb + rb ≤ 64) :
    (if 64 ≤ rb then r else lowBits (l <<< rb) 64 ||| r) = l <<< rb ||| r := by
  split
  · have hempty : lb = 0 := by omega
    rw [hempty, Nat.pow_zero, Nat.lt_one_iff] at hl
    rw [hl, Nat.zero_shiftLeft, Nat.zero_or]
  · have hlow : l <<< rb < 2 ^ 64 :=
      Nat.lt_of_lt_of_le (Nat.shiftLeft_lt hl) (Nat.pow_le_pow_right (by decide) hword)
    rw [lowBits_eq_mod, Nat.mod_eq_of_lt hlow]

theorem joined_gives (hd : types.overrides = ∅) {left right : Code} {both : Ty} {l r : Nat}
    (hok : (concat left right type).Ok lows store) (hleft : left.value? = some l)
    (hright : right.value? = some r) (hword : left.bits + right.bits ≤ 64)
    (hboth : types.typeFor (left.bits + right.bits) = .ok both) :
    (scalar both (if 64 ≤ right.bits then r else lowBits (l <<< right.bits) 64 ||| r)).Gives
      lows store
      (left.bits + right.bits) fun c => (concat left right type).eval store = some c := by
  obtain ⟨-, hl, hr, -, -⟩ := hok
  obtain ⟨hle, hlt, -⟩ := hl.eval_of_value? hleft
  obtain ⟨hre, hrt, -⟩ := hr.eval_of_value? hright
  have hpos : 0 < left.bits := hl.plain.bits_pos
  have hvalue := joined_lt hlt hrt
  rw [joined_eq hlt hword] at hvalue ⊢
  rw [TypeContext.typeFor_of_le hd hword hboth]
  apply (scalar_gives (by omega) hword hvalue).mono
  intro c hc
  obtain ⟨lc, rc, hlc, hrc, rfl⟩ := eval_concat_eq_some_iff.1 hc
  cases hle.symm.trans hlc
  cases hre.symm.trans hrc
  exact (Constant.ofNat_eq_self hvalue).symm

theorem Gives.simplified {asked : Constant → Prop} (hd : types.overrides = ∅)
    (h : code.Gives lows store w asked) (hs : Simplified types code new) :
    new.Gives lows store w asked := by
  apply h.replace
  have hok := h.ok
  cases hs with
  | same => exact .of_ok hok
  | read v type index => exact simplifyRead_gives hok
  | @merged v lt rt type both li ri start hbytes hleft hright hboth =>
    have hbits : lt.bits + rt.bits = (concat (.read v lt li) (.read v rt ri) type).bits :=
      hok.2.2.2.1.symm
    exact hbits ▸ merged_gives hd hok hbytes hleft hright hboth
  | @joined left right type both l r hleft hright hword hboth =>
    have hbits : left.bits + right.bits = (concat left right type).bits := hok.2.2.2.1.symm
    exact hbits ▸ joined_gives hd hok hleft hright hword hboth
  | uncast inner =>
    refine ⟨hok.1, rfl, ?_⟩
    intro c hc
    obtain ⟨d, hd, hcast⟩ := Option.bind_eq_some_iff.1 hc
    obtain ⟨hbits, hvalid⟩ := hok.1.eval_fits hd
    rw [hok.1.plain.isSigned_eq] at hcast
    cases hcast
    rw [hd]
    exact congrArg some (hbits ▸ Constant.zeroExtend_self hvalid).symm

theorem Gives.simplify {asked : Constant → Prop} (hd : types.overrides = ∅)
    (h : code.Gives lows store w asked) (hs : code.simplify types = .ok new) :
    new.Gives lows store w asked :=
  h.simplified hd (simplified_of_simplify hs)

end Code

end BitvectorCode
