import BitvectorCode.Proofs.Code.Slice
import BitvectorCode.Proofs.Lowering.Cases
import BitvectorCode.Proofs.Lowering.Operator

/-!
# Lowering one node

Each rule of lowering gives the value of its kind of node wherever the code of the children gives
theirs. Together with the rules for operators they cover every kind of node but reads.
-/

namespace BitvectorCode

open Code

variable {env : Environment} {g : Graph} {store : Store} {code new : Code} {w : Nat}
variable {lows lows' : Nat → Prop} {asked askedLeft askedRight : Constant → Prop}

theorem foldElements_push {ε α : Type} {step : Nat → Array α → Except ε (Array α)} {f : Nat → α}
    {count : Nat} {elements : Array α}
    (h : ∀ i < count, ∀ found, step i found = .ok (found.push (f i)))
    (hwalk : foldElements step count #[] = .ok elements) :
    elements.toList = (List.range count).map f := by
  have hall : ∀ (indices : List Nat) (found : Array α), (∀ i ∈ indices, i < count) →
      indices.foldlM (fun found i => step i found) found =
        .ok (found ++ (indices.map f).toArray) := by
    intro indices found hlt
    induction indices generalizing found with
    | nil => simp [pure, Except.pure]
    | cons i indices ih =>
      have hhead : step i found = .ok (found.push (f i)) := h i (hlt i List.mem_cons_self) found
      have htail := ih (found.push (f i)) fun j hj => hlt j (List.mem_cons_of_mem i hj)
      rw [List.foldlM_cons, hhead]
      simpa [bind, Except.bind] using htail
  rw [foldElements_eq_foldlM, hall _ _ fun i hi => List.mem_range.1 hi] at hwalk
  cases hwalk
  simp

theorem ofDigits_bytes {c : Constant} {count : Nat} (hv : c.Valid) (hbits : c.bits = 8 * count) :
    Nat.ofDigits (2 ^ 8) ((List.range count).map fun i => (c.slice (i * 8) 8).value) = c.value := by
  have hlt : ∀ n ∈ (List.range count).map fun i => (c.slice (i * 8) 8).value, n < 2 ^ 8 := by
    intro n hn
    obtain ⟨i, -, rfl⟩ := List.mem_map.1 hn
    exact Constant.slice_valid
  apply Nat.eq_of_testBit_eq
  intro i
  rw [testBit_ofDigits (by decide) hlt]
  by_cases hi : i / 8 < count
  · have hsplit : i / 8 * 8 + i % 8 = i := by omega
    have hmod : i % 8 < 8 := Nat.mod_lt _ (by decide)
    simp [hi, Constant.testBit_slice, hsplit, hmod]
  · have hle : c.bits ≤ i := by omega
    simp [hi, hv.testBit_eq_false hle]

namespace Environment

theorem lowerConstant_gives (hd : env.types.overrides = ∅) {c : Constant} (hv : c.Valid)
    (h : env.lowerConstant c = .ok code) : code.Gives lows store c.bits fun d => c = d := by
  obtain ⟨type, htype, h⟩ := bind_eq_ok_iff.1 h
  rcases TypeContext.typeFor_eq_ok hd htype with ⟨hpos, hle, rfl⟩ | ⟨hwide, h8, rfl⟩
  · have hlt : c.value < 2 ^ 64 := hv.lt_two_pow hle
    have hword : c.word? = some c.value := Constant.word?_eq_some_iff.2 ⟨hlt, rfl⟩
    simp only [Ty.unsigned, hword] at h
    cases h
    exact scalar_gives hpos hle hv
  · obtain ⟨elements, helements, h⟩ := bind_eq_ok_iff.1 h
    cases h
    have hlist : elements.toList =
        (List.range (c.bits / 8)).map fun i => (c.slice (i * 8) 8).value := by
      apply foldElements_push _ helements
      intro i hi found
      have hbyte : (c.slice (i * 8) 8).value < 2 ^ 8 := Constant.slice_valid
      have hword : (c.slice (i * 8) 8).word? = some (c.slice (i * 8) 8).value :=
        Constant.word?_eq_some_iff.2 ⟨Nat.lt_of_lt_of_le hbyte (by decide), rfl⟩
      change (c.extract (i * 8) 8 >>= _) = _
      rw [Constant.extract_eq_slice (by omega)]
      simp only [bind, Except.bind, hword]
      rfl
    have hvalue := ofDigits_bytes hv (show c.bits = 8 * (c.bits / 8) by omega)
    rw [← hlist] at hvalue
    have hlength : elements.toList.length * 8 = c.bits := by
      rw [hlist, List.length_map, List.length_range]
      omega
    have hfits : ∀ n ∈ elements.toList, n < 2 ^ 8 := by
      intro n hn
      rw [hlist] at hn
      obtain ⟨i, -, rfl⟩ := List.mem_map.1 hn
      exact Constant.slice_valid
    apply (bytes_gives (by omega) hlength hfits).mono
    rintro d rfl
    rw [hvalue]

theorem isPadding_eq_false (hok : code.Ok lows store) : isPadding code = false := by
  cases code with
  | read v type index =>
    obtain ⟨-, hplain, start, hstart, hin⟩ := hok
    have hpos := hplain.bits_pos
    apply isPadding_read
    intro n hn
    rw [hstart.2 n hn, Ty.bytes]
    omega
  | _ => rfl

theorem lowerConcat_gives (hd : env.types.overrides = ∅) {e : NodeId}
    {left right : Code} {wl wr : Nat} (hl : left.Gives lows store wl askedLeft)
    (hr : right.Gives lows store wr askedRight) (hlow : lows wr) (hw : g.width e = wl + wr)
    (h : env.lowerConcat g e left right = .ok code) :
    code.Gives lows store (wl + wr) fun c => ∃ l r, askedLeft l ∧ askedRight r ∧
      l.concat r = c := by
  rcases lowerConcat_eq_ok h with ⟨hpadding, -⟩ | ⟨type, htype, hcode⟩
  · rw [isPadding_eq_false hl.ok] at hpadding
    cases hpadding
  obtain ⟨hplain, hbits⟩ := TypeContext.typeFor_plain hd htype
  have hconcat : (concat left right type).Gives lows store (wl + wr)
      fun c => ∃ l r, askedLeft l ∧ askedRight r ∧ l.concat r = c := by
    refine ⟨⟨hplain, hl.ok, hr.ok, ?_, ?_⟩, hbits.trans hw, ?_⟩
    · rw [hbits, hw, hl.bits_eq, hr.bits_eq]
    · rwa [hr.bits_eq]
    · intro c hc
      rcases hc with ⟨l, r, hlv, hrv, rfl⟩
      exact eval_concat_eq_some_iff.2 ⟨l, r, hl.eval_eq l hlv, hr.eval_eq r hrv, rfl⟩
  exact hconcat.simplified hd hcode

theorem lowerExtract_gives (hd : env.types.overrides = ∅) {inner : Code} {offset width : Nat}
    (hi : inner.Gives lows store w asked) (hpos : 0 < width) (hin : offset + width ≤ w)
    (h : env.lowerExtract inner offset width = .ok code) :
    ∃ part o, inner.part offset width = .ok (part, o) ∧ code.Gives lows store width
      fun c => ∃ d, asked d ∧ d.slice (offset - part.slack o) width = c := by
  obtain ⟨part, o, hpart, h⟩ := lowerExtract_eq_ok h
  obtain ⟨hok, hin', start, hstart, -, hvalue⟩ := part_spec hi.ok (hi.bits_eq ▸ hin) hpart
  have hgives : code.Gives lows store width
      fun c => ∃ d, part.eval store = some d ∧ d.slice (o - part.slack o) width = c := by
    rcases h with ⟨rfl, rfl, rfl⟩ | ⟨type, htype, hslice⟩
    · refine ⟨hok, rfl, ?_⟩
      intro c hc
      rcases hc with ⟨d, hd, rfl⟩
      obtain ⟨hbits, hvalid⟩ := hok.eval_fits hd
      rw [Nat.zero_sub, ← hbits, Constant.slice_all hvalid, hd]
    · exact slice_gives hd hok hpos hin' htype hslice
  refine ⟨part, o, hpart, hgives.mono ?_⟩
  intro c hc
  rcases hc with ⟨d, hd, rfl⟩
  have hslack : part.slack o ≤ o := slack_le
  refine ⟨_, hvalue d (hi.eval_eq d hd), ?_⟩
  rw [Constant.slice_slice (by omega)]
  congr 1
  omega

theorem lowerExtract_gives_aligned (hd : env.types.overrides = ∅) {inner : Code}
    {offset width : Nat} (hi : inner.Gives (· % 8 = 0) store w asked) (ho : offset % 8 = 0)
    (hpos : 0 < width) (hin : offset + width ≤ w)
    (h : env.lowerExtract inner offset width = .ok code) :
    code.Gives (· % 8 = 0) store width fun c => ∃ d, asked d ∧ d.slice offset width = c := by
  obtain ⟨part, o, hpart, hgives⟩ := lowerExtract_gives hd hi hpos hin h
  rwa [slack_eq_zero fun _ => part_aligned hi.ok ho hpart, Nat.sub_zero] at hgives

theorem cast_gives {inner : Code} {type : Ty} (hi : inner.Gives lows store w asked)
    (hplain : type.Plain) :
    (cast inner type).Gives lows store type.bits fun c => ∃ d, asked d ∧
      d.zeroExtend type.bits = c := by
  refine ⟨⟨hi.ok, hplain⟩, rfl, ?_⟩
  intro c hc
  rcases hc with ⟨d, hd, rfl⟩
  simp [eval, hi.eval_eq d hd, hi.ok.plain.isSigned_eq]

theorem complement_gives {inner : Code} (hi : inner.Gives lows store w asked) :
    (complement inner).Gives lows' store w
      fun c => ∃ d, asked d ∧ Constant.ofNat (d.value ^^^ ones w) w = c := by
  have hbits : inner.type.bits = w := hi.bits_eq
  refine ⟨hi.ok.plain, hbits, ?_⟩
  intro c hc
  rcases hc with ⟨d, hd, rfl⟩
  simp [complement, eval, hi.eval_eq d hd, hbits]

theorem choose_gives {cond ifTrue ifFalse : Code} {askedCond : Constant → Prop}
    (hc : ∀ c, askedCond c → ∃ d, cond.eval store = some d ∧ (d.isZero = true ↔ ¬ c.isOne = true))
    (ht : ifTrue.Gives lows store w askedLeft) (hf : ifFalse.Gives lows store w askedRight) :
    (choose cond ifTrue ifFalse).Gives lows store w
      fun c => ∃ b, askedCond b ∧ if b.isOne then askedLeft c else askedRight c := by
  refine ⟨⟨ht.ok, hf.ok, rfl, hf.bits_eq.trans ht.bits_eq.symm⟩, ht.bits_eq, ?_⟩
  intro c hc
  rcases hc with ⟨b, hb, hchosen⟩
  obtain ⟨d, hd, hzero⟩ := hc b hb
  simp only [choose, eval, hd, Option.bind_eq_bind, Option.bind_some]
  by_cases hone : b.isOne = true
  · rw [if_neg (fun hz => hzero.1 hz hone)]
    rw [if_pos hone] at hchosen
    exact ht.eval_eq c hchosen
  · rw [if_pos (hzero.2 hone)]
    rw [if_neg hone] at hchosen
    exact hf.eval_eq c hchosen

theorem eval_signTest {inner : Code} {d : Constant} (hok : inner.Ok lows store)
    (hd : inner.eval store = some d) :
    (binary .equals (binary .shr inner (scalar inner.type (inner.bits - 1)) inner.type)
      (scalar inner.type 1) (.unsigned 1)).eval store = some (.ofBool d.isNegative) := by
  obtain ⟨hbits, hvalid⟩ := hok.eval_fits hd
  have hindex : ∀ n, (scalar inner.type n).IsIndex store n := isIndex_scalar inner.type
  obtain ⟨distance, hdistance, hvalue⟩ := (hindex (inner.bits - 1)).1
  obtain ⟨one, hone, hone'⟩ := (hindex 1).1
  have hpos : 0 < d.bits := hbits ▸ hok.plain.bits_pos
  have hshift : Constant.ofInt ((d.value : Int) >>> (inner.bits - 1)) inner.type.bits =
      .ofNat (d.value >>> (d.bits - 1)) d.bits := by
    rw [hbits]
    exact Constant.ofInt_natCast _ _
  simp only [eval, hd, hdistance, hone, Option.bind_eq_bind, Option.bind_some, CodeOp.eval,
    hok.plain.isSigned_eq, Constant.reading_false, hvalue, hone', hshift]
  rw [← Constant.isNegative_eq_shiftRight hvalid hpos]
  rfl

theorem eval_choose {cond ifTrue ifFalse : Code} {b : Bool}
    (h : cond.eval store = some (.ofBool b)) :
    (choose cond ifTrue ifFalse).eval store =
      if b then ifTrue.eval store else ifFalse.eval store := by
  rw [choose, eval, h]
  cases b <;> rfl

theorem eval_fill {inner : Code} {width : Nat} {d : Constant} (hok : inner.Ok lows store)
    (hd : inner.eval store = some d) (hle : inner.bits ≤ width) (h64 : width ≤ 64) :
    (binary .or (cast inner (.unsigned width))
      (scalar (.unsigned width) (wordMask width ^^^ wordMask inner.bits))
      (.unsigned width)).eval store =
        some (.ofNat (d.value ||| (ones width ^^^ ones d.bits)) width) := by
  obtain ⟨hbits, hvalid⟩ := hok.eval_fits hd
  have hlt : d.value < 2 ^ width := hvalid.lt_two_pow (hbits ▸ hle)
  have hextended : (cast inner (.unsigned width)).eval store = some ⟨d.value, width⟩ := by
    simp only [eval, hd, hok.plain.isSigned_eq]
    exact congrArg some (Constant.ofNat_eq_self hlt)
  have hmask : wordMask width ^^^ wordMask inner.bits = ones width ^^^ ones d.bits := by
    rw [wordMask_eq h64, wordMask_eq (by omega), hbits]
  rw [eval, hextended, eval_scalar, hmask]
  rfl

theorem lowerSignExtend_gives (hd : env.types.overrides = ∅) {inner : Code} {width : Nat}
    (hi : inner.Gives lows store w asked) (hle : w ≤ width)
    (h : env.lowerSignExtend inner width = .ok code) :
    code.Gives lows store width fun c => ∃ d, asked d ∧ d.signExtend width = c := by
  have hbits : inner.bits = w := hi.bits_eq
  rcases lowerSignExtend_eq_ok h with ⟨hsame, rfl⟩ | ⟨hne, h64, type, truth, htype, htruth, rfl⟩
  · obtain rfl : w = width := hbits.symm.trans hsame
    apply hi.mono
    intro c hc
    rcases hc with ⟨d, hask, rfl⟩
    obtain ⟨hdbits, hvalid⟩ := hi.fits hask
    rw [← hdbits, Constant.signExtend_self hvalid]
    exact hask
  · rw [TypeContext.typeFor_of_le hd h64 htype, TypeContext.typeFor_of_le hd (by decide) htruth]
    have hplain : (Ty.unsigned width).Plain := ⟨rfl, by omega, h64⟩
    refine ⟨⟨hplain, ⟨hi.ok, hplain⟩, rfl, rfl⟩, rfl, ?_⟩
    intro c hc
    rcases hc with ⟨d, hask, rfl⟩
    have heval : inner.eval store = some d := hi.eval_eq d hask
    have hlt : d.bits < width := by
      have hdbits := (hi.fits hask).1
      omega
    rw [eval_choose (eval_signTest hi.ok heval), eval_fill hi.ok heval (by omega) h64,
      Constant.signExtend]
    cases d.isNegative with
    | true => simp [hlt]
    | false =>
      simp only [eval, heval, hi.ok.plain.isSigned_eq]
      rfl

end Environment

end BitvectorCode
