import BitvectorCode.Proofs.Graph.ConcatTree
import BitvectorCode.Proofs.Graph.Reachability
import BitvectorCode.Proofs.Lowering.Lower

/-!
# Padding

Bytes past the end of a variable stand for zeros, and where such bytes are the left operand of a
concat, its code is that of the right one. The code of a concat of bytes is then narrower than the
concat. It has the value of the concat as long as no byte is put on above a part that has lost some
of its bits: that byte would come to stand too low.
-/

namespace BitvectorCode

/-- The number that bytes make up: a concat is its left operand, shifted by the bits of the right
one, or this. -/
def Code.assembled (store : Store) : Code → Option Nat
  | var v => some (store.read v 0 v.type.bits).value
  | read v type index => (index.eval store).map fun i => (store.read v i.value type.bits).value
  | concat left right _ => do
    let l ← left.assembled store
    let r ← right.assembled store
    return l <<< right.bits ||| r
  | _ => none

namespace Environment

def symbol? (env : Environment) (root : Root) : Option Variable :=
  let name := env.options.resolve root.name
  if name = env.options.packetSymbol then none else env.symbols.symbols[name]?

/-- The variables of the symbols hold the bytes of the roots, and past their ends zeros. -/
structure Pads (env : Environment) (store : Store) (g : Graph) (bytes : Bytes) : Prop where
  bytes_eq : ∀ r < g.roots.size, ∀ (v : Variable) (i : Nat) (byte : UInt8),
    env.symbol? (g.root r) = some v →
    ((g.root r).byte? i <|> bytes (g.root r) i) = some byte → store v i = byte
  zeros : ∀ (root : Root) (v : Variable) (i : Nat), env.symbol? root = some v →
    v.type.bytes ≤ i → store v i = 0

/-- If a node is a concat whose left operand is kept, the code of its right operand has all bits of
that. -/
def keepsPlace (env : Environment) (g : Graph) (n : NodeId) : Bool :=
  match g.expr n with
  | .concat high low =>
    match env.lower g high, env.lower g low with
    | .ok left, .ok right => isPadding left || right.bits == g.width low
    | _, _ => true
  | _ => true

end Environment

/-- An expression that puts together bytes of declared symbols at constant indices. A word can hold
the index after each of them. -/
inductive Tree.OnlyBytes (env : Environment) : Tree → Prop
  | read {root : Root} {i : Constant} {v : Variable} (hv : env.symbol? root = some v)
      (hi : i.value + 1 < UInt64.size) : OnlyBytes env (.read root (.constant i))
  | concat {high low : Tree} (hh : high.OnlyBytes env) (hl : low.OnlyBytes env) :
      OnlyBytes env (.concat high low)

theorem Tree.OnlyBytes.index_eq {env : Environment} {root : Root} {index : Tree}
    (h : (Tree.read root index).OnlyBytes env) :
    ∃ i v, index = .constant i ∧ env.symbol? root = some v := by
  cases h with
  | read hv _ => exact ⟨_, _, rfl, hv⟩

open Code

variable {env : Environment} {g : Graph} {store : Store} {bytes : Bytes}
    {e : NodeId} {code left right : Code}

theorem Store.value_read_of_zeros {v : Variable} {start bits : Nat}
    (h : ∀ i, start ≤ i → store v i = 0) :
    (store.read v start bits).value = 0 := by
  apply Nat.eq_of_testBit_eq
  intro i
  rw [testBit_read, h (start + i / 8) (Nat.le_add_right _ _)]
  simp

namespace Code

/-- Code of bytes that have been put together: a variable, a concat, or a read of a declared symbol
at a known index. -/
def IsBytes (env : Environment) (store : Store) : Code → Prop
  | var _ | concat .. => True
  | read v _ index => (∃ start, index.IsIndex store start) ∧ ∃ root, env.symbol? root = some v
  | _ => False

theorem IsBytes.value?_eq_none (h : code.IsBytes env store) : code.value? = none := by
  cases code with
  | constant type values => exact h.elim
  | _ => rfl

theorem assembled_read {v : Variable} {type : Ty} {index : Code} {start : Nat}
    (h : index.IsIndex store start) :
    (read v type index).assembled store = some (store.read v start type.bits).value := by
  obtain ⟨i, hi, rfl⟩ := h.1
  rw [assembled, hi]
  rfl

theorem assembled_simplifyRead {v : Variable} {type : Ty} {index : Code} {start : Nat}
    (h : index.IsIndex store start) :
    (simplifyRead v type index).assembled store = some (store.read v start type.bits).value := by
  unfold simplifyRead
  split
  · next whole =>
    have hzero : 0 = start := h.2 0 whole.1
    rw [assembled, ← hzero, whole.2]
  · exact assembled_read h

theorem isBytes_simplifyRead {v : Variable} {type : Ty} {index : Code} {start : Nat}
    (h : index.IsIndex store start) {root : Root} (hv : env.symbol? root = some v) :
    (simplifyRead v type index).IsBytes env store := by
  unfold simplifyRead
  split
  · trivial
  · exact ⟨⟨start, h⟩, root, hv⟩

theorem assembled_merged {v : Variable} {lt rt type both : Ty} {li ri : Code} {ls rs start : Nat}
    (hli : li.IsIndex store ls) (hri : ri.IsIndex store rs) (hbytes : rt.bits % 8 = 0)
    (hleft : li.value? = some (start + rt.bits / 8)) (hright : ri.value? = some start)
    (hboth : both.bits = lt.bits + rt.bits) :
    (simplifyRead v both (scalar ri.type start)).assembled store =
      (concat (.read v lt li) (.read v rt ri) type).assembled store := by
  obtain rfl : start + rt.bits / 8 = ls := hli.2 _ hleft
  obtain rfl : start = rs := hri.2 start hright
  have hconcat : (store.read v start both.bits).value =
      (store.read v (start + rt.bits / 8) lt.bits).value <<< rt.bits |||
        (store.read v start rt.bits).value := by
    rw [hboth, ← Store.concat_read hbytes, Constant.value_concat Store.read_valid Store.read_valid,
      Store.bits_read]
  rw [assembled_simplifyRead (isIndex_scalar _ _), hconcat, assembled,
    assembled_read hli, assembled_read hri]
  rfl

/-- Code of bytes that is at most `width` bits wide and the number that is asked for. -/
structure Assembles (env : Environment) (store : Store) (code : Code) (width : Nat)
    (asked : Constant → Prop) :
    Prop where
  isBytes : code.IsBytes env store
  bits_le : code.bits ≤ width
  assembled_eq : ∀ c, asked c → code.assembled store = some c.value

end Code

namespace Environment

theorem Pads.eq_zero_of_isPadding (hs : env.Pads store g bytes) (hcode : code.IsBytes env store)
    (h : isPadding code = true) {n : Nat} (hn : code.assembled store = some n) : n = 0 := by
  cases code with
  | read v type index =>
    obtain ⟨⟨start, hstart⟩, root, hv⟩ := hcode
    have hend : v.type.bytes ≤ start := by
      cases hi : index.value? with
      | none => simp [isPadding, hi] at h
      | some i =>
        rw [← hstart.2 i hi]
        simpa [isPadding, hi] using h
    have hzeros : ∀ k, start ≤ k → store v k = 0 :=
      fun k hk => hs.zeros root v k hv (Nat.le_trans hend hk)
    rw [assembled_read hstart, Store.value_read_of_zeros hzeros] at hn
    exact (Option.some.inj hn).symm
  | _ => cases h

theorem isIndex_of_lower_constant (hd : env.types.overrides = ∅) (wf : g.WellFormed)
    (he : e < g.size) {c : Constant} (hx : g.expr e = .constant c) (h : env.lower g e = .ok code) :
    code.IsIndex store c.value := by
  rw [lower_eq wf he, nodeCode, hx] at h
  obtain ⟨plain, hplain, h⟩ := bind_eq_ok_iff.1 h
  have hgives : plain.Gives (fun _ => True) store c.bits fun d => c = d :=
    lowerConstant_gives hd (wf.constant_valid he hx) hplain
  exact isIndex_of_gives (hgives.simplify hd h)

theorem lower_read_assembles (hd : env.types.overrides = ∅) (wf : g.WellFormed) (he : e < g.size)
    (hs : env.Pads store g bytes) {r : RootId} {index : NodeId} {i : Constant} {v : Variable}
    (hx : g.expr e = .read r index) (hi : g.expr index = .constant i)
    (hv : env.symbol? (g.root r) = some v) (h : env.lower g e = .ok code) :
    code.Assembles env store 8 fun c =>
      (Tree.read (g.root r) (.constant i)).eval bytes = .ok c := by
  have hindex : index < g.size := wf.child_lt_size he (by simp [hx, Expr.children])
  have hr : r < g.roots.size := wf.root_lt he (by simp [hx, Expr.roots])
  obtain ⟨hname, hsymbol⟩ : env.options.resolve (g.root r).name ≠ env.options.packetSymbol ∧
      env.symbols.symbols[env.options.resolve (g.root r).name]? = some v := by
    unfold symbol? at hv
    dsimp only at hv
    split at hv
    · cases hv
    · next hname => exact ⟨hname, hv⟩
  rw [lower_eq wf he, nodeCode, hx] at h
  obtain ⟨plain, hplain, h⟩ := bind_eq_ok_iff.1 h
  rw [readCode, if_neg hname, hsymbol] at hplain
  obtain ⟨position, hposition, hplain⟩ := bind_eq_ok_iff.1 hplain
  cases hplain
  cases h
  have hstart : position.IsIndex store i.value :=
    isIndex_of_lower_constant hd wf hindex hi hposition
  refine ⟨isBytes_simplifyRead hstart hv, ?_, ?_⟩
  · exact Nat.le_of_eq bits_simplifyRead
  · intro c hc
    obtain ⟨byte, hbyte, rfl⟩ := Tree.eval_read_constant hc
    rw [assembled_simplifyRead hstart, ← hs.bytes_eq r hr v i.value byte hv hbyte]
    exact congrArg (fun c => some c.value) Store.read_byte

/-- Where no kept byte is put on above code that is too narrow, the code of a concat is the number
of the concat. -/
theorem lowerConcat_assembles (hd : env.types.overrides = ∅)
    (hs : env.Pads store g bytes) {wl wr : Nat} {askedLeft askedRight : Constant → Prop}
    (hl : left.Assembles env store wl askedLeft) (hr : right.Assembles env store wr askedRight)
    (hw : g.width e = wl + wr) (hleft : ∀ c, askedLeft c → c.Valid)
    (hright : ∀ c, askedRight c → c.bits = wr ∧ c.Valid)
    (keeps : isPadding left = true ∨ right.bits = wr)
    (h : env.lowerConcat g e left right = .ok code) :
    code.Assembles env store (wl + wr) fun c => ∃ l r, askedLeft l ∧ askedRight r ∧
      c = l.concat r := by
  have hnumber : ∀ {l r : Constant}, askedLeft l → askedRight r →
      (l.concat r).value = l.value <<< wr ||| r.value := by
    intro l r hlv hrv
    rw [Constant.value_concat (hleft l hlv) (hright r hrv).2, (hright r hrv).1]
  by_cases hpadding : isPadding left = true
  · obtain rfl : right = code := by
      rw [lowerConcat, if_pos hpadding] at h
      exact Except.ok.inj h
    refine ⟨hr.isBytes, Nat.le_trans hr.bits_le (Nat.le_add_left _ _), ?_⟩
    rintro _ ⟨l, r, hlv, hrv, rfl⟩
    have hzero : l.value = 0 := hs.eq_zero_of_isPadding hl.isBytes hpadding (hl.assembled_eq l hlv)
    rw [hr.assembled_eq r hrv, hnumber hlv hrv, hzero, Nat.zero_shiftLeft, Nat.zero_or]
  · obtain ⟨type, htype, hcode⟩ :=
      (lowerConcat_eq_ok h).resolve_left fun dropped => hpadding dropped.1
    have hkept : right.bits = wr := keeps.resolve_left hpadding
    have hconcat : ∀ c, (∃ l r, askedLeft l ∧ askedRight r ∧ c = l.concat r) →
        (concat left right type).assembled store = some c.value := by
      rintro _ ⟨l, r, hlv, hrv, rfl⟩
      rw [assembled, hl.assembled_eq l hlv, hr.assembled_eq r hrv, hnumber hlv hrv, hkept]
      rfl
    cases hcode with
    | same => exact ⟨trivial, hw ▸ Nat.le_of_eq (TypeContext.typeFor_plain hd htype).2, hconcat⟩
    | @merged v lt rt type both li ri start hbytes hli hri hboth =>
      obtain ⟨⟨ls, hls⟩, root, hv⟩ := hl.isBytes
      obtain ⟨⟨rs, hrs⟩, -⟩ := hr.isBytes
      have hbits := (TypeContext.typeFor_plain hd hboth).2
      refine ⟨isBytes_simplifyRead (isIndex_scalar _ _) hv, ?_, ?_⟩
      · rw [bits_simplifyRead, hbits]
        exact Nat.add_le_add hl.bits_le hr.bits_le
      · intro c hc
        rw [assembled_merged hls hrs hbytes hli hri hbits, hconcat c hc]
    | joined hvalue =>
      rw [hl.isBytes.value?_eq_none] at hvalue
      cases hvalue

theorem lower_assembles (hd : env.types.overrides = ∅) (wf : g.WellFormed)
    (hs : env.Pads store g bytes) (he : e < g.size) (ht : (g.tree e).OnlyBytes env)
    (keeps : ∀ n, g.Reaches e n → env.keepsPlace g n = true) (h : env.lower g e = .ok code) :
    code.Assembles env store (g.width e) fun c => (g.tree e).eval bytes = .ok c := by
  induction e using Nat.strong_induction_on generalizing code with
  | _ e ih =>
    have hsort := wf.sortRule he
    rw [wf.tree_eq he] at ht ⊢
    cases hx : g.expr e with
    | read r index =>
      rw [hx] at ht hsort
      obtain ⟨i, v, hindex, hv⟩ := ht.index_eq
      have hlt : index < g.size := wf.child_lt_size he (by simp [hx, Expr.children])
      rw [Expr.unfold, hindex, show g.width e = 8 from hsort]
      exact lower_read_assembles hd wf he hs hx (wf.expr_of_tree_constant hlt hindex) hv h
    | concat high low =>
      obtain ⟨hhigh, hlow, hwidth⟩ := wf.concat_operands he hx
      have hhigh' := Nat.lt_trans hhigh he
      have hlow' := Nat.lt_trans hlow he
      obtain ⟨hh, hl⟩ : (g.tree high).OnlyBytes env ∧ (g.tree low).OnlyBytes env := by
        rw [hx] at ht
        cases ht with
        | concat hh hl => exact ⟨hh, hl⟩
      rw [lower_eq wf he, nodeCode, hx] at h
      obtain ⟨left, hleft, h⟩ := bind_eq_ok_iff.1 h
      obtain ⟨right, hright, h⟩ := bind_eq_ok_iff.1 h
      have place := keeps e (.refl e)
      rw [keepsPlace, hx] at place
      simp only [hleft, hright, Bool.or_eq_true, beq_iff_eq] at place
      have hleft' := ih high hhigh hhigh' hh
        (fun n hn => keeps n (.of_child (by simp [hx, Expr.children]) hn)) hleft
      have hright' := ih low hlow hlow' hl
        (fun n hn => keeps n (.of_child (by simp [hx, Expr.children]) hn)) hright
      have fits : ∀ {n c}, n < g.size → (g.tree n).eval bytes = .ok c →
          c.bits = g.width n ∧ c.Valid := by
        intro n c hn hc
        rw [← wf.width_tree hn]
        exact Tree.eval_fits (wf.wellSorted_tree hn) hc
      have hcode := lowerConcat_assembles hd hs hleft' hright' hwidth
        (fun c hc => (fits hhigh' hc).2) (fun c hc => fits hlow' hc) place h
      rw [← hwidth] at hcode
      refine ⟨hcode.isBytes, hcode.bits_le, fun c hc => hcode.assembled_eq c ?_⟩
      exact Tree.eval_concat_eq_ok_iff.1 hc
    | _ =>
      rw [hx] at ht
      cases ht

/-- An expression of bytes of declared symbols, of which those past the end of a variable are zeros,
is lowered to code that is no wider and the same number, if every byte is either padding or put on
above code that has all bits of its expression. -/
theorem assembled_lower (hd : env.types.overrides = ∅) (wf : g.WellFormed) (he : e < g.size)
    (hs : env.Pads store g bytes) (ht : (g.tree e).OnlyBytes env)
    (keeps : ∀ n, g.Reaches e n → env.keepsPlace g n = true) (h : env.lower g e = .ok code) :
    code.bits ≤ g.width e ∧ ∀ c, (g.tree e).eval bytes = .ok c →
      code.assembled store = some c.value := by
  have hcode := lower_assembles hd wf hs he ht keeps h
  exact ⟨hcode.bits_le, hcode.assembled_eq⟩

/-- A byte above a field of two bytes, with a byte of padding above both. -/
theorem assembled_lower_of_padded_byte :
    let field : Variable := ⟨"d", .unsigned 16⟩
    let flag : Variable := ⟨"e", .byte⟩
    let env : Environment := { symbols := (({} : SymbolTable).declare "D" field).declare "E" flag }
    let store : Store := fun v k =>
      if v.type.bytes ≤ k then 0 else if v = flag then 0x56 else if k = 0 then 0x34 else 0x12
    let bytes : Bytes := fun root k => some (store (if root.name = "E" then flag else field) k)
    let g : Graph :=
      { nodes := #[⟨.constant ⟨0, 32⟩, 32⟩, ⟨.read 0 0, 8⟩, ⟨.constant ⟨1, 32⟩, 32⟩, ⟨.read 0 2, 8⟩,
          ⟨.concat 3 1, 16⟩, ⟨.constant ⟨2, 32⟩, 32⟩, ⟨.read 0 5, 8⟩, ⟨.read 1 0, 8⟩,
          ⟨.concat 6 7, 16⟩, ⟨.concat 8 4, 32⟩]
        roots := #[.symbolic "D" 4, .symbolic "E" 1] }
    let code : Code := .concat (.var flag) (.var field) (.unsigned 32)
    env.types.overrides = ∅ ∧ g.WellFormed ∧ 9 < g.size ∧ env.Pads store g bytes ∧
      (g.tree 9).OnlyBytes env ∧
      (∀ n, g.Reaches 9 n → env.keepsPlace g n = true) ∧ env.lower g 9 = .ok code ∧
      (g.tree 9).eval bytes = .ok ⟨0x561234, 32⟩ ∧ code.bits ≤ 32 ∧
        code.assembled store = some 0x561234 := by
  intro field flag env store bytes g code
  have types : env.types.overrides = ∅ := rfl
  have wf : g.WellFormed := by decide +kernel
  have hfield : env.symbol? (.symbolic "D" 4) = some field := by decide +kernel
  have hflag : env.symbol? (.symbolic "E" 1) = some flag := by decide +kernel
  have zeros : ∀ (root : Root) (v : Variable) (i : Nat), env.symbol? root = some v →
      v.type.bytes ≤ i →
      store v i = 0 := fun root v i _ hi => if_pos hi
  have pads : env.Pads store g bytes := by
    refine ⟨fun r hr v i byte hv hbyte => ?_, zeros⟩
    obtain rfl | rfl : r = 0 ∨ r = 1 := by
      have hr : r < 2 := hr
      omega
    · cases hfield.symm.trans hv
      exact Option.some.inj hbyte
    · cases hflag.symm.trans hv
      exact Option.some.inj hbyte
  have tree : g.tree 9 = .concat
      (.concat (.read (.symbolic "D" 4) (.constant ⟨2, 32⟩))
        (.read (.symbolic "E" 1) (.constant ⟨0, 32⟩)))
      (.concat (.read (.symbolic "D" 4) (.constant ⟨1, 32⟩))
        (.read (.symbolic "D" 4) (.constant ⟨0, 32⟩))) := by
    decide +kernel
  have onlyBytes : (g.tree 9).OnlyBytes env := by
    rw [tree]
    exact .concat (.concat (.read hfield (by decide)) (.read hflag (by decide)))
      (.concat (.read hfield (by decide)) (.read hfield (by decide)))
  have places : ∀ n < g.size, env.keepsPlace g n = true := by decide +kernel
  have keeps : ∀ n, g.Reaches 9 n → env.keepsPlace g n = true :=
    fun n hn => places n (hn.lt_size wf (by decide))
  have lowered : env.lower g 9 = .ok code := by decide +kernel
  have meaning : (g.tree 9).eval bytes = .ok ⟨0x561234, 32⟩ := by
    rw [tree]
    decide +kernel
  obtain ⟨bits, value⟩ := assembled_lower types wf (by decide) pads onlyBytes keeps lowered
  exact ⟨types, wf, by decide, pads, onlyBytes, keeps, lowered, meaning, bits, value _ meaning⟩

/-- The second byte of a field above padding and the first one: without the padding they are lowered
to the field, and the second byte stands eight bits too low. -/
theorem lower_byte_above_padding :
    let field : Variable := ⟨"d", .unsigned 16⟩
    let env : Environment := { symbols := ({} : SymbolTable).declare "D" field }
    let store : Store := fun v k => if v.type.bytes ≤ k then 0 else if k = 0 then 1 else 2
    let bytes : Bytes := fun _ k => some (store field k)
    let g : Graph :=
      { nodes := #[⟨.constant ⟨0, 32⟩, 32⟩, ⟨.read 0 0, 8⟩, ⟨.constant ⟨1, 32⟩, 32⟩, ⟨.read 0 2, 8⟩,
          ⟨.constant ⟨3, 32⟩, 32⟩, ⟨.read 0 4, 8⟩, ⟨.concat 5 1, 16⟩, ⟨.concat 3 6, 24⟩]
        roots := #[.symbolic "D" 4] }
    env.types.overrides = ∅ ∧ g.WellFormed ∧ 7 < g.size ∧ env.Pads store g bytes ∧
      (g.tree 7).OnlyBytes env ∧
      env.lower g 7 = .ok (.var field) ∧ (g.tree 7).eval bytes = .ok ⟨0x20001, 24⟩ ∧
      (Code.var field).assembled store = some 0x201 := by
  intro field env store bytes g
  have hfield : env.symbol? (.symbolic "D" 4) = some field := by decide +kernel
  have pads : env.Pads store g bytes := by
    refine ⟨fun r hr v i byte hv hbyte => ?_, fun root v i _ hi => if_pos hi⟩
    obtain rfl : r = 0 := Nat.lt_one_iff.1 hr
    cases hfield.symm.trans hv
    exact Option.some.inj hbyte
  have tree : g.tree 7 = .concat (.read (.symbolic "D" 4) (.constant ⟨1, 32⟩))
      (.concat (.read (.symbolic "D" 4) (.constant ⟨3, 32⟩))
        (.read (.symbolic "D" 4) (.constant ⟨0, 32⟩))) := by
    decide +kernel
  have onlyBytes : (g.tree 7).OnlyBytes env := by
    rw [tree]
    exact .concat (.read hfield (by decide))
      (.concat (.read hfield (by decide)) (.read hfield (by decide)))
  have meaning : (g.tree 7).eval bytes = .ok ⟨0x20001, 24⟩ := by
    rw [tree]
    decide +kernel
  exact ⟨rfl, by decide +kernel, by decide, pads, onlyBytes, by decide +kernel, meaning,
    by decide +kernel⟩

end Environment

end BitvectorCode
