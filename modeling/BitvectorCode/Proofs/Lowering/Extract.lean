import BitvectorCode.Proofs.Lowering.Lower

/-!
# The bits an extract takes

An extract starts at a whole byte of its operand, but is taken from the part of the operand's code
that holds its bits, and there it starts anywhere: concats may have parts of any widths to the right
of that one. A part that is computed is shifted by as many bits as it takes, while a variable is
read from a whole byte on, so that the bits below the next one down come too.
-/

namespace BitvectorCode.Environment

open Code

variable {env : Environment} {g : Graph} {store : Store} {bytes : Bytes} {e inner : NodeId}
variable {offset width : Nat} {code : Code}

/-- An extract is lowered exactly if it starts at a whole byte and its rule makes code of that of
the operand. -/
theorem lower_extract_eq_ok_iff (wf : g.WellFormed) (he : e < g.size)
    (hx : g.expr e = .extract inner offset width) : env.lower g e = .ok code ↔
      offset % 8 = 0 ∧ ∃ whole plain, env.lower g inner = .ok whole ∧
        env.lowerExtract whole offset width = .ok plain ∧ plain.simplify env.types = .ok code := by
  rw [lower_eq wf he, nodeCode, hx]
  dsimp only
  split
  · next hodd =>
    constructor
    · intro h
      cases h
    · exact fun h => absurd h.1 hodd
  · next heven =>
    constructor
    · intro h
      obtain ⟨whole, hwhole, h⟩ := bind_eq_ok_iff.1 h
      obtain ⟨plain, hplain, h⟩ := bind_eq_ok_iff.1 h
      exact ⟨not_not.1 heven, whole, plain, hwhole, hplain, h⟩
    · rintro ⟨-, whole, plain, hwhole, hplain, h⟩
      exact bind_eq_ok_iff.2 ⟨whole, hwhole, bind_eq_ok_iff.2 ⟨plain, hplain, h⟩⟩

/-- The code of an extract has the bits asked for, if the part of the operand's code that they are
taken from is no variable and no read of one, or has them at a whole byte. Of any other part it has
the bits from the whole byte below on. -/
theorem eval_lower_extract (hd : env.types.overrides = ∅) (wf : g.WellFormed) (he : e < g.size)
    (hs : env.Describes store g bytes) (hx : g.expr e = .extract inner offset width)
    (ht : (g.tree inner).Composed env fun _ => True) (h : env.lower g e = .ok code) :
    ∃ whole part o, env.lower g inner = .ok whole ∧ whole.part offset width = .ok (part, o) ∧
      code.bits = width ∧
      ((part.isAddressed = true → o % 8 = 0) → ∀ c, (g.tree inner).eval bytes = .ok c →
        code.eval store = some (c.slice offset width)) ∧
      (part.isAddressed = true → ∀ c, (g.tree inner).eval bytes = .ok c →
        code.eval store = some (c.slice (offset - o % 8) width)) := by
  obtain ⟨-, whole, plain, hwhole, hplain, hcode⟩ := (lower_extract_eq_ok_iff wf he hx).1 h
  have hinner : inner < g.size := wf.child_lt_size he (by simp [hx, Expr.children])
  obtain ⟨hin, hpos, -⟩ : offset + width ≤ g.width inner ∧ 0 < width ∧ g.width e = width := by
    have hsort := wf.sortRule he
    rwa [hx] at hsort
  have hvalue := (lower_right hd wf hinner hs hwhole).hasValue _ ht
  obtain ⟨part, o, hpart, hgives⟩ := lowerExtract_gives hd hvalue hpos hin hplain
  have hcode := hgives.simplify hd hcode
  refine ⟨whole, part, o, hwhole, hpart, hcode.bits_eq, fun haligned c hc => ?_,
    fun haddressed c hc => ?_⟩
  · exact hcode.eval_eq _ ⟨c, hc, by rw [slack_eq_zero haligned, Nat.sub_zero]⟩
  · exact hcode.eval_eq _ ⟨c, hc, by rw [slack, if_pos haddressed]⟩

/-- The bits 8 to 15 of a sum above four bits of a constant are the bits 4 to 11 of the sum. -/
theorem eval_lower_extract_of_sum :
    let field : Variable := ⟨"d", .unsigned 16⟩
    let env : Environment := { symbols := ({} : SymbolTable).declare "D" field }
    let store : Store := fun _ k => if k = 1 then 0x12 else 0x34
    let bytes : Bytes := fun _ k => some (if k = 1 then 0x12 else 0x34)
    let g : Graph :=
      { nodes := #[⟨.constant ⟨0, 32⟩, 32⟩, ⟨.read 0 0, 8⟩, ⟨.constant ⟨1, 32⟩, 32⟩, ⟨.read 0 2, 8⟩,
          ⟨.concat 3 1, 16⟩, ⟨.constant ⟨1, 16⟩, 16⟩, ⟨.binary .add 4 5, 16⟩, ⟨.constant ⟨5, 4⟩, 4⟩,
          ⟨.concat 6 7, 20⟩, ⟨.extract 8 8 8, 8⟩]
        roots := #[.symbolic "D" 2] }
    let word : Ty := .unsigned 16
    let sum : Code := .binary .add (.var field) (.scalar word 1) word
    let code : Code :=
      .cast (.binary .and (.binary .shr sum (.scalar word 4) word) (.scalar word 0xff) word) .byte
    env.types.overrides = ∅ ∧ g.WellFormed ∧ 9 < g.size ∧ env.Describes store g bytes ∧
      g.expr 9 = .extract 8 8 8 ∧ ((g.tree 8).Composed env fun _ => True) ∧
        env.lower g 9 = .ok code ∧
      (g.tree 8).eval bytes = .ok ⟨0x12355, 20⟩ ∧ code.bits = 8 ∧
        code.eval store = some ⟨0x23, 8⟩ := by
  intro field env store bytes g word sum code
  have types : env.types.overrides = ∅ := rfl
  have wf : g.WellFormed := by decide +kernel
  have place : ∀ i, env.place? (.symbolic "D" 2) i = some (field, i) :=
    place?_of_symbol (by decide +kernel) (by decide +kernel)
  have describes : env.Describes store g bytes :=
    describes_of_symbol rfl place fun i byte hbyte => Option.some.inj hbyte
  have whole : field.Whole := ⟨⟨rfl, by decide, by decide⟩, by decide⟩
  let bytesOfField : Tree := .concat (.read (.symbolic "D" 2) (.constant ⟨1, 32⟩))
    (.read (.symbolic "D" 2) (.constant ⟨0, 32⟩))
  have fieldComposed : bytesOfField.Composed env fun _ => True :=
    Tree.composed_of_symbol place whole (by decide)
  have oneComposed : (Tree.constant ⟨1, 16⟩).Composed env fun _ => True := .constant _
  have tree : g.tree 8 = .concat (.binary .add bytesOfField (.constant ⟨1, 16⟩))
      (.constant ⟨5, 4⟩) := by
    decide +kernel
  have composed : (g.tree 8).Composed env fun _ => True := by
    rw [tree]
    exact .concat (.binary fieldComposed oneComposed) (.constant _) trivial
  have lowered : env.lower g 9 = .ok code := by decide +kernel
  have meaning : (g.tree 8).eval bytes = .ok ⟨0x12355, 20⟩ := by
    rw [tree]
    decide +kernel
  obtain ⟨concat, part, o, hconcat, hpart, bits, value, -⟩ :=
    eval_lower_extract types wf (by decide) describes rfl composed lowered
  let top : Code := .concat sum (.scalar (.unsigned 4) 5) (.unsigned 20)
  have htop : env.lower g 8 = .ok top := by decide +kernel
  have hsum : top.part 8 8 = .ok (sum, 4) := by decide +kernel
  obtain rfl := Except.ok.inj (htop.symm.trans hconcat)
  obtain ⟨rfl, rfl⟩ := Prod.mk.inj (Except.ok.inj (hsum.symm.trans hpart))
  exact ⟨types, wf, by decide, describes, rfl, composed, lowered, meaning, bits,
    value (fun haddressed => by cases haddressed) _ meaning⟩

/-- Above four bits of a constant, a byte has its high four bits at a whole byte. An extract of
these is lowered to a read of the low four. -/
theorem lower_extract_inside_byte :
    let byte : Variable := ⟨"b", .byte⟩
    let env : Environment := { symbols := ({} : SymbolTable).declare "B" byte }
    let store : Store := fun _ _ => 0x34
    let bytes : Bytes := fun _ _ => some 0x34
    let g : Graph :=
      { nodes := #[⟨.constant ⟨0, 32⟩, 32⟩, ⟨.read 0 0, 8⟩, ⟨.constant ⟨5, 4⟩, 4⟩,
          ⟨.concat 1 2, 12⟩, ⟨.extract 3 8 4, 4⟩]
        roots := #[.symbolic "B" 1] }
    let code : Code := .read byte (.unsigned 4) (.index 0)
    env.types.overrides = ∅ ∧ g.WellFormed ∧ 4 < g.size ∧ env.Describes store g bytes ∧
      ((g.tree 3).Composed env fun _ => True) ∧ env.lower g 4 = .ok code ∧
      (g.tree 4).eval bytes = .ok ⟨3, 4⟩ ∧ code.eval store = some ⟨4, 4⟩ := by
  intro byte env store bytes g code
  have place : ∀ i, env.place? (.symbolic "B" 1) i = some (byte, i) :=
    place?_of_symbol (by decide +kernel) (by decide +kernel)
  have whole : byte.Whole := ⟨⟨rfl, by decide, by decide⟩, by decide⟩
  have tree : g.tree 3 = .concat (.read (.symbolic "B" 1) (.constant ⟨0, 32⟩))
      (.constant ⟨5, 4⟩) := by
    decide +kernel
  have composed : (g.tree 3).Composed env fun _ => True := by
    rw [tree]
    exact .concat (.read (place 0) whole (by decide)) (.constant _) trivial
  have describes : env.Describes store g bytes :=
    describes_of_symbol rfl place fun i b hb => Option.some.inj hb
  exact ⟨rfl, by decide +kernel, by decide, describes, composed, by decide +kernel,
    by decide +kernel, by decide +kernel⟩

end BitvectorCode.Environment
