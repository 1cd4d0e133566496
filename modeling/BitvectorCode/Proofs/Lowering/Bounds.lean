import BitvectorCode.Proofs.Code.Bounds
import BitvectorCode.Proofs.Lowering.Cases
import BitvectorCode.Proofs.Lowering.Chunks
import BitvectorCode.Proofs.Lowering.Derivation
import BitvectorCode.Proofs.Lowering.Operator

/-!
# Lowered code stays inside its variables

Every variable in lowered code is one that the environment declares, and every read at a constant
index takes its bits from inside its variable. A packet read is inside its chunk because the chunk
was looked up. A read of another root is inside its variable if the expression reads it there. Wider
reads come from neighbouring bytes and from slices, which keep inside as long as declared types have
the size of their width.
-/

namespace BitvectorCode

open Code

namespace Environment

/-- The variables that the environment declares: those of symbols, the chunks, and those bound to
reads by their position. -/
inductive Declares (env : Environment) : Variable → Prop
  | symbol {name : String} {v : Variable} (h : env.symbols.symbols[name]? = some v) : Declares env v
  | chunk {offset : Nat} {v : Variable} (h : env.chunks.chunks[offset]? = some v) : Declares env v
  | local {e : NodeId} {v : Variable} (h : env.symbols.locals[e]? = some v) : Declares env v

def LocalsAreBytes (env : Environment) : Prop :=
  ∀ (e : NodeId) (v : Variable), env.symbols.locals[e]? = some v → v.type.bits = 8

/-- Every read below `e` of a root with a declared symbol is at a byte of the variable, if its index
is lowered to a constant. -/
def ReadsInside (env : Environment) (g : Graph) (e : NodeId) : Prop :=
  ∀ (n : NodeId) (r : RootId) (index : NodeId) (v : Variable) (code : Code) (i : Nat),
    g.Reaches e n → g.expr n = .read r index →
    env.options.resolve (g.root r).name ≠ env.options.packetSymbol →
    env.symbols.symbols[env.options.resolve (g.root r).name]? = some v →
    env.lower g index = .ok code → code.value? = some i → i < v.type.bytes

/-- The check of one node: if it reads a declared symbol at an index that is lowered to a constant,
it reads a byte of the variable. -/
def readInside (env : Environment) (g : Graph) (n : NodeId) : Bool :=
  match g.expr n with
  | .read r index =>
    let name := env.options.resolve (g.root r).name
    name == env.options.packetSymbol ||
      env.symbols.symbols[name]?.all fun v =>
        (env.lower g index).toOption.all fun code =>
          code.value?.all fun i => decide (i < v.type.bytes)
  | _ => true

variable {env : Environment} {g : Graph} {e : NodeId} {code left right new : Code} {w : Nat}

theorem readsInside_of_readInside (wf : g.WellFormed) (he : e < g.size)
    (h : ∀ n < g.size, env.readInside g n = true) : env.ReadsInside g e := by
  intro n r index v code i hr hx hname hv hcode hi
  have hn := h n (hr.lt_size wf he)
  simpa [readInside, hx, hname, hv, hcode, hi, Except.toOption] using hn

theorem ReadsInside.child {x : NodeId} (inside : env.ReadsInside g e)
    (hx : x ∈ (g.expr e).children) :
    env.ReadsInside g x :=
  fun n r index v code i hr => inside n r index v code i (.of_child hx hr)

/-- Code whose accesses are right, with room for `width` bits where a slice would read it again. -/
structure Room (env : Environment) (code : Code) (width : Nat) : Prop where
  placed : code.Everywhere (Placed env.Declares)
  fits : code.IsPlace → width ≤ code.bits

theorem Room.simplify (sized : env.types.Sized) (h : code.Everywhere (Placed env.Declares))
    (hw : w ≤ code.bits) (hs : code.simplify env.types = .ok new) : env.Room new w := by
  obtain ⟨hplaced, hbits⟩ := simplified_placed sized h (simplified_of_simplify hs)
  exact ⟨hplaced, fun hp => hw.trans (hbits hp)⟩

theorem isPadding_of_placed (h : code.Placed env.Declares) : isPadding code = false := by
  cases code with
  | read v type index =>
    obtain ⟨-, hpos, hinside⟩ := h
    apply isPadding_read
    intro i hi
    have := hinside i hi
    omega
  | _ => rfl

theorem readByte_placed {v : Variable} {index : Code} (hv : env.Declares v)
    (hindex : index.Everywhere (Placed env.Declares))
    (hin : ∀ i, index.value? = some i → i < v.type.bytes) :
    (read v .byte index).Everywhere (Placed env.Declares) := by
  refine ⟨⟨hv, by decide, ?_⟩, hindex⟩
  intro i hi
  have hlt := hin i hi
  change 8 * i + 8 ≤ _
  omega

theorem lowerPacketRead_placed {index : NodeId} {name : String}
    (h : env.lowerPacketRead g index name = .ok code) :
    code.Everywhere (Placed env.Declares) ∧ code.bits = 8 := by
  obtain ⟨offset, start, v, hlookup, rfl⟩ := lowerPacketRead_eq_ok h
  obtain ⟨hchunk, hstart, hend⟩ := ChunkTable.lookup_eq_some hlookup
  refine ⟨readByte_placed (.chunk hchunk) trivial ?_, rfl⟩
  intro i hi
  cases hi
  omega

theorem lowerConcat_room (sized : env.types.Sized) {wl wr : Nat} (hl : env.Room left wl)
    (hr : env.Room right wr) (hw : g.width e = wl + wr)
    (h : env.lowerConcat g e left right = .ok code) :
    env.Room code (g.width e) := by
  rcases lowerConcat_eq_ok h with ⟨hpadding, -⟩ | ⟨type, htype, hcode⟩
  · rw [isPadding_of_placed hl.placed.self] at hpadding
    cases hpadding
  · have hbits : type.bits = g.width e := sized.bits_typeFor htype
    have hconcat : (concat left right type).Everywhere (Placed env.Declares) := by
      refine ⟨fun hlp hrp => ?_, hl.placed, hr.placed⟩
      have := hl.fits hlp
      have := hr.fits hrp
      omega
    obtain ⟨hplaced, hfits⟩ := simplified_placed sized hconcat hcode
    exact ⟨hplaced, fun hp => hbits.ge.trans (hfits hp)⟩

theorem lowerExtract_room (sized : env.types.Sized) {offset width : Nat} (hc : env.Room code w)
    (hpos : 0 < width) (hin : offset + width ≤ w)
    (h : env.lowerExtract code offset width = .ok new) :
    new.Everywhere (Placed env.Declares) ∧ width ≤ new.bits := by
  obtain ⟨part, o, hpart, h⟩ := lowerExtract_eq_ok h
  obtain ⟨hplaced, hfits⟩ := part_placed hc.placed (fun hp => hin.trans (hc.fits hp)) hpart
  rcases h with ⟨rfl, -, hwhole⟩ | ⟨type, htype, hslice⟩
  · exact ⟨hplaced, hwhole.le⟩
  · have hbits := sized.bits_typeFor htype
    obtain ⟨hnew, htarget⟩ := sliced_placed hplaced hfits hpos hbits (sliced_of_slice hslice)
    exact ⟨hnew, by rw [Code.bits, htarget, hbits]⟩

theorem lowerSignExtend_room (sized : env.types.Sized) (hc : code.Everywhere (Placed env.Declares))
    (h : env.lowerSignExtend code w = .ok new) :
    new.Everywhere (Placed env.Declares) ∧ w ≤ new.bits := by
  rcases lowerSignExtend_eq_ok h with ⟨hsame, rfl⟩ | ⟨-, -, type, truth, htype, -, rfl⟩
  · exact ⟨hc, hsame.ge⟩
  · exact ⟨⟨trivial, ⟨trivial, ⟨trivial, hc, trivial⟩, trivial⟩,
      ⟨trivial, ⟨trivial, hc⟩, trivial⟩, trivial, hc⟩, (sized.bits_typeFor htype).ge⟩

/-- Every rule makes code with room for its node from code with room for the nodes below. -/
theorem Lowers.room (sized : env.types.Sized) (wf : g.WellFormed) (he : e < g.size)
    (locals : env.LocalsAreBytes) (inside : env.ReadsInside g e) (h : env.Lowers g e code) :
    env.Room code (g.width e) := by
  induction h with
  | constant hx hplain hcode =>
    have hsort := wf.sortRule he
    rw [hx] at hsort
    obtain ⟨type, values, htype, rfl⟩ := lowerConstant_eq_ok hplain
    have hplaced : (Code.constant type values).Everywhere (Placed env.Declares) := trivial
    exact .simplify sized hplaced (hsort.trans (sized.bits_typeFor htype).symm).le hcode
  | packetRead hx hname hplain hcode =>
    have hsort := wf.sortRule he
    rw [hx] at hsort
    obtain ⟨hplaced, hbits⟩ := lowerPacketRead_placed hplain
    exact .simplify sized hplaced (hsort.trans hbits.symm).le hcode
  | @symbolRead e r index v i code hx hname hv hindex hcode ih =>
    have hsort := wf.sortRule he
    rw [hx] at hsort
    have hchild : index ∈ (g.expr e).children := by simp [hx, Expr.children]
    have hi := wf.child_lt_size he hchild
    have hplaced := (ih hi (inside.child hchild)).placed
    have hbyte := readByte_placed (.symbol hv) hplaced
      fun n hn => inside e r index v i n (.refl e) hx hname hv (hindex.lower_eq_ok wf hi) hn
    exact .simplify sized hbyte hsort.le hcode
  | @localRead e r index v hx hname hnone hv =>
    have hsort := wf.sortRule he
    rw [hx] at hsort
    have hbits := locals e v hv
    exact ⟨⟨.local hv, by omega⟩, fun _ => (hsort.trans hbits.symm).le⟩
  | @concat e high low left right code hx hleft hright hcode ihl ihr =>
    have hsort := wf.sortRule he
    rw [hx] at hsort
    have hhigh : high ∈ (g.expr e).children := by simp [hx, Expr.children]
    have hlow : low ∈ (g.expr e).children := by simp [hx, Expr.children]
    have hl := ihl (wf.child_lt_size he hhigh) (inside.child hhigh)
    have hr := ihr (wf.child_lt_size he hlow) (inside.child hlow)
    exact lowerConcat_room sized hl hr hsort hcode
  | @extract e inner offset width whole plain code hx haligned hinner hplain hcode ih =>
    have hsort := wf.sortRule he
    rw [hx] at hsort
    obtain ⟨hin, hpos, hw⟩ := hsort
    have hchild : inner ∈ (g.expr e).children := by simp [hx, Expr.children]
    have hroom := ih (wf.child_lt_size he hchild) (inside.child hchild)
    obtain ⟨hplaced, hbits⟩ := lowerExtract_room sized hroom hpos hin hplain
    exact .simplify sized hplaced (by rw [hw]; exact hbits) hcode
  | @zeroExtend e inner operand code type hx hinner htype hcode ih =>
    have hchild : inner ∈ (g.expr e).children := by simp [hx, Expr.children]
    have hroom := ih (wf.child_lt_size he hchild) (inside.child hchild)
    have hcast : (cast operand type).Everywhere (Placed env.Declares) := ⟨trivial, hroom.placed⟩
    exact .simplify sized hcast (sized.bits_typeFor htype).ge hcode
  | @signExtend e inner operand plain code hx hinner hplain hcode ih =>
    have hchild : inner ∈ (g.expr e).children := by simp [hx, Expr.children]
    have hroom := ih (wf.child_lt_size he hchild) (inside.child hchild)
    obtain ⟨hplaced, hbits⟩ := lowerSignExtend_room sized hroom.placed hplain
    exact .simplify sized hplaced hbits hcode
  | @not e inner operand hx hinner ih =>
    have hchild : inner ∈ (g.expr e).children := by simp [hx, Expr.children]
    have hroom := ih (wf.child_lt_size he hchild) (inside.child hchild)
    exact ⟨⟨trivial, hroom.placed⟩, False.elim⟩
  | @binary e lhs rhs op left right plain code hx hleft hright hplain hcode ihl ihr =>
    have hlhs : lhs ∈ (g.expr e).children := by simp [hx, Expr.children]
    have hrhs : rhs ∈ (g.expr e).children := by simp [hx, Expr.children]
    have hl := (ihl (wf.child_lt_size he hlhs) (inside.child hlhs)).placed
    have hr := (ihr (wf.child_lt_size he hrhs) (inside.child hrhs)).placed
    obtain ⟨type, left', -, hleft', rfl⟩ := lowerBinary_eq_ok hplain
    cases hcode
    exact ⟨⟨trivial, operand_everywhere (fun _ _ => trivial) hl hleft', hr⟩, False.elim⟩
  | @doubled e lhs rhs x op operand code hx hdouble hinner hcode ih =>
    have hsort := wf.sortRule he
    rw [hx] at hsort
    have hrhs : rhs ∈ (g.expr e).children := by simp [hx, Expr.children]
    have hchild := Graph.mem_children_of_doubleComplement? hdouble
    have hroom :=
      ih (wf.child_lt_size (wf.child_lt_size he hrhs) hchild) ((inside.child hrhs).child hchild)
    have hplaced := (simplified_placed sized hroom.placed (simplified_of_simplify hcode)).1
    exact ⟨hplaced, fun hp => by rw [hsort.2]; exact hplaced.self.bits_pos hp⟩
  | @compare e lhs rhs op left right plain code hx hsingle hleft hright hplain hcode ihl ihr =>
    have hlhs : lhs ∈ (g.expr e).children := by simp [hx, Expr.children]
    have hrhs : rhs ∈ (g.expr e).children := by simp [hx, Expr.children]
    have hl := (ihl (wf.child_lt_size he hlhs) (inside.child hlhs)).placed
    have hr := (ihr (wf.child_lt_size he hrhs) (inside.child hrhs)).placed
    obtain ⟨type, left', right', -, hleft', hright', rfl⟩ := lowerCompare_eq_ok hplain
    cases hcode
    exact ⟨⟨trivial, operand_everywhere (fun _ _ => trivial) hl hleft',
      operand_everywhere (fun _ _ => trivial) hr hright'⟩, False.elim⟩
  | @select e cond ifTrue ifFalse c t f hx hcond htrue hfalse ihc iht ihf =>
    have hc : cond ∈ (g.expr e).children := by simp [hx, Expr.children]
    have ht : ifTrue ∈ (g.expr e).children := by simp [hx, Expr.children]
    have hf : ifFalse ∈ (g.expr e).children := by simp [hx, Expr.children]
    have hcond := (ihc (wf.child_lt_size he hc) (inside.child hc)).placed
    have htrue := (iht (wf.child_lt_size he ht) (inside.child ht)).placed
    have hfalse := (ihf (wf.child_lt_size he hf) (inside.child hf)).placed
    exact ⟨⟨trivial, hcond, htrue, hfalse⟩, False.elim⟩

/-- Every variable in the code of an expression is declared, and every read at a constant index
takes its bits from inside its variable, if the expression reads declared symbols inside their
variables. -/
theorem lower_accesses (sized : env.types.Sized) (wf : g.WellFormed) (he : e < g.size)
    (locals : env.LocalsAreBytes) (inside : env.ReadsInside g e)
    (h : env.lower g e = .ok code) : code.Everywhere (Accesses env.Declares) :=
  ((lowers_of_lower wf he h).room sized wf he locals inside).placed.imp fun _ => Placed.accesses

/-- The high byte of a header field of two bytes, beside the packet byte after it. -/
theorem lower_accesses_of_high_byte :
    let header : Variable := ⟨"header", .unsigned 16⟩
    let ether : Variable := ⟨"ether", .array .byte 14⟩
    let env : Environment :=
      { symbols := ({} : SymbolTable).declare "header" header
        chunks := ⟨({} : Std.TreeMap Nat Variable).insert 0 ether⟩ }
    let g : Graph :=
      { nodes := #[⟨.constant ⟨0, 32⟩, 32⟩, ⟨.read 0 0, 8⟩, ⟨.constant ⟨1, 32⟩, 32⟩, ⟨.read 0 2, 8⟩,
          ⟨.concat 3 1, 16⟩, ⟨.extract 4 8 8, 8⟩, ⟨.constant ⟨12, 32⟩, 32⟩, ⟨.read 1 6, 8⟩,
          ⟨.concat 5 7, 16⟩]
        roots := #[.symbolic "header" 2, .symbolic "packet_chunks" 64] }
    let high : Code := .read header .byte (.index 1)
    let low : Code := .read ether .byte (.index 12)
    let code : Code := .concat high low (.unsigned 16)
    env.types.Sized ∧ g.WellFormed ∧ 8 < g.size ∧ env.LocalsAreBytes ∧ env.ReadsInside g 8 ∧
      env.lower g 8 = .ok code ∧ code.Everywhere (Accesses env.Declares) := by
  intro header ether env g high low code
  have sized : env.types.Sized := TypeContext.sized_empty
  have wf : g.WellFormed := by decide +kernel
  have locals : env.LocalsAreBytes := by
    intro e v h
    simp [env, SymbolTable.declare] at h
  have inside : env.ReadsInside g 8 := readsInside_of_readInside wf (by decide) (by decide +kernel)
  have lowered : env.lower g 8 = .ok code := by decide +kernel
  exact ⟨sized, wf, by decide, locals, inside, lowered,
    lower_accesses sized wf (by decide) locals inside lowered⟩

/-- A width may be given a type of another size in a table that was not built by declaring types.
Two neighbouring bytes of a field then become a read of eight bytes. -/
theorem lower_past_end_of_unsized_type :
    let field : Variable := ⟨"d", .unsigned 16⟩
    let env : Environment :=
      { symbols := ({} : SymbolTable).declare "D" field
        types := ⟨({} : Std.TreeMap Nat Ty).insert 16 (.unsigned 64)⟩ }
    let g : Graph :=
      { nodes := #[⟨.constant ⟨0, 32⟩, 32⟩, ⟨.read 0 0, 8⟩, ⟨.constant ⟨1, 32⟩, 32⟩, ⟨.read 0 2, 8⟩,
          ⟨.concat 3 1, 16⟩]
        roots := #[.symbolic "D" 2] }
    g.WellFormed ∧ env.chunks = {} ∧ env.LocalsAreBytes ∧ env.ReadsInside g 4 ∧
      (∀ v, env.Declares v → 0 < v.type.bits) ∧
      ∃ code, env.lower g 4 = .ok code ∧ ¬ code.Everywhere (Accesses env.Declares) := by
  intro field env g
  have wf : g.WellFormed := by decide +kernel
  have locals : env.LocalsAreBytes := by
    intro e v h
    simp [env, SymbolTable.declare] at h
  have inside : env.ReadsInside g 4 := readsInside_of_readInside wf (by decide) (by decide +kernel)
  have positive : ∀ v, env.Declares v → 0 < v.type.bits := by
    rintro v (h | h | h)
    · have hv : v = field := by
        simp [env, SymbolTable.declare, Std.TreeMap.getElem?_insert] at h
        exact h.2.symm
      rw [hv]
      decide
    · simp [env] at h
    · simp [env, SymbolTable.declare] at h
  have lowered : env.lower g 4 = .ok (.read field (.unsigned 64) (.index 0)) := by decide +kernel
  refine ⟨wf, rfl, locals, inside, positive, _, lowered, ?_⟩
  intro h
  exact absurd (h.1.2 0 rfl) (by decide)

end Environment

end BitvectorCode
