import BitvectorCode.Proofs.Code.Bounds
import BitvectorCode.Proofs.Graph.ByteRun
import BitvectorCode.Proofs.Lowering.Chunks
import BitvectorCode.Proofs.Lowering.Extract

/-!
# Runs of packet bytes are fields

A run of packet bytes inside one chunk is lowered to one read of the chunk's variable, or to the
variable if the run is all of it. Bytes are merged as soon as a concat puts them together, and a
shorter run inside the same chunk is never the whole variable, so that every concat of a run finds
two reads to merge. Whole bytes taken out of a run are lowered as if they were read alone.
-/

namespace BitvectorCode

namespace Code

variable {v : Variable} {type : Ty}

theorem simplifyRead_of_ne {index : Code} (h : type.bits ≠ v.type.bits) :
    simplifyRead v type index = read v type index :=
  if_neg fun whole => h whole.2

theorem simplifyRead_index (i : Nat) : simplifyRead v type (index i) =
    if i = 0 ∧ type.bits = v.type.bits then var v else read v type (index i) := by
  unfold simplifyRead
  simp only [show (index i).value? = some i from rfl, Option.some.injEq]

theorem part_simplifyRead {index : Code} {offset width : Nat} :
    (simplifyRead v type index).part offset width = .ok (simplifyRead v type index, offset) := by
  unfold simplifyRead
  split <;> rfl

theorem slice_simplifyRead {i offset width : Nat} {target : Ty} :
    (simplifyRead v type (index i)).slice offset width target =
      .ok (read v target (index (i + offset / 8))) := by
  rw [simplifyRead_index]
  split
  · next whole =>
    rw [whole.1, Nat.zero_add]
    rfl
  · rfl

theorem simplify_simplifyRead {types : TypeContext} {index : Code} :
    (simplifyRead v type index).simplify types = .ok (simplifyRead v type index) := by
  by_cases whole : index.value? = some 0 ∧ type.bits = v.type.bits
  · rw [simplifyRead, if_pos whole]
    rfl
  · rw [simplifyRead, if_neg whole, simplify, simplifyRead, if_neg whole]

theorem simplify_neighbours {types : TypeContext} {lt rt both : Ty} {l r : Nat}
    (hlt : lt.bits % 8 = 0) (hrt : rt.bits % 8 = 0) (hnext : l = r + rt.bytes)
    (hboth : types.typeFor (lt.bits + rt.bits) = .ok both) :
    (concat (.read v lt (index l)) (.read v rt (index r)) type).simplify types =
      .ok (simplifyRead v both (index r)) := by
  have merged : mergeReads types (.read v lt (index l)) (.read v rt (index r)) =
      .ok (some (simplifyRead v both (index r))) := by
    have index_value : ∀ i, (index i).value? = some i := fun _ => rfl
    unfold mergeReads
    dsimp only
    rw [if_neg (by simp [hlt, hrt])]
    simp only [index_value, if_pos hnext, hboth]
    rfl
  unfold simplify
  simp only [merged]
  rfl

end Code

theorem TypeContext.exists_typeFor_bytes (types : TypeContext) {n : Nat} (hn : 0 < n) :
    ∃ type, types.typeFor (8 * n) = .ok type := by
  unfold typeFor
  split
  · exact ⟨_, rfl⟩
  · rw [if_neg (by omega)]
    split
    · exact ⟨_, rfl⟩
    · rw [if_pos (by omega)]
      exact ⟨_, rfl⟩

namespace Environment

open Code

/-- The type of a read of whole bytes: a byte has the same type in every environment. -/
def runType (env : Environment) (count : Nat) : Except Error Ty :=
  if count = 1 then .ok .byte else env.types.typeFor (8 * count)

variable {env : Environment} {g : Graph} {name : String} {start count s : Nat}
    {v : Variable} {e : NodeId}
variable {type : Ty}

theorem exists_runType (env : Environment) (hcount : 0 < count) :
    ∃ type, env.runType count = .ok type := by
  unfold runType
  split
  · exact ⟨_, rfl⟩
  · exact env.types.exists_typeFor_bytes hcount

theorem bits_runType (sized : env.types.Sized) (h : env.runType count = .ok type) :
    type.bits = 8 * count := by
  unfold runType at h
  split at h
  · next hone =>
    cases h
    rw [hone]
    rfl
  · exact sized.bits_typeFor h

theorem runType_of_two_le (h : 2 ≤ count) : env.runType count = env.types.typeFor (8 * count) :=
  if_neg (by omega)

theorem runType_of_byte (hbyte : env.types.typeFor 8 = .ok .byte) (count : Nat) :
    env.runType count = env.types.typeFor (8 * count) := by
  unfold runType
  split
  · next hone => rw [hone, hbyte]
  · rfl

/-- A run inside one chunk is read at once. -/
theorem lower_byteRun (sized : env.types.Sized) (wf : g.WellFormed) (he : e < g.size)
    (hname : env.options.resolve name = env.options.packetSymbol)
    (run : g.ByteRun name start count e)
    (look : ∀ i < count, env.chunks.lookup (start + i) = some (s, v))
    (htype : env.runType count = .ok type) :
    env.lower g e = .ok (simplifyRead v type (.index (start - s))) := by
  induction run generalizing type with
  | @byte start e hread =>
    obtain ⟨r, index, c, hx, hroot, hi, hw⟩ := Graph.byteRead?_eq_some_iff.1 hread
    have hlookup : env.chunks.lookup start = some (s, v) := look 0 Nat.one_pos
    cases htype
    rw [lower_eq wf he, nodeCode, hx]
    refine bind_eq_ok_iff.2 ⟨.read v .byte (.index (start - s)), ?_, rfl⟩
    rw [readCode, hroot, if_pos hname, lowerPacketRead, hi]
    simp only [Expr.constant?, Option.bind_some, hw, hlookup]
  | @concat start m n e high low hx hl hh ihl ihh =>
    obtain ⟨hhigh, hlow, hwidth⟩ := wf.concat_operands he hx
    have hhigh := Nat.lt_trans hhigh he
    have hlow := Nat.lt_trans hlow he
    have hm := hl.count_pos
    have hn := hh.count_pos
    obtain ⟨-, hfrom, -⟩ := ChunkTable.lookup_eq_some (look 0 (by omega))
    obtain ⟨-, -, hto⟩ := ChunkTable.lookup_eq_some (look (m + n - 1) (by omega))
    have hlong : 8 * (m + n) ≤ v.type.bits + 7 := by
      unfold Ty.bytes at hto
      omega
    obtain ⟨lt, hlt⟩ := env.exists_runType hn
    obtain ⟨rt, hrt⟩ := env.exists_runType hm
    have hltbits := bits_runType sized hlt
    have hrtbits := bits_runType sized hrt
    have hrtbytes : rt.bytes = m := by
      unfold Ty.bytes
      omega
    have hleft : env.lower g high = .ok (.read v lt (.index (start + m - s))) := by
      have look' : ∀ i < n, env.chunks.lookup (start + m + i) = some (s, v) := by
        intro i hi
        rw [Nat.add_assoc]
        exact look (m + i) (by omega)
      rw [ihh hhigh look' hlt, simplifyRead_of_ne (by omega)]
    have hright : env.lower g low = .ok (.read v rt (.index (start - s))) := by
      rw [ihl hlow (fun i hi => look i (by omega)) hrt, simplifyRead_of_ne (by omega)]
    have hpadding : isPadding (.read v lt (.index (start + m - s))) = false := by
      apply isPadding_read
      rintro _ ⟨⟩
      omega
    have hwidth : g.width e = 8 * (m + n) := (Graph.ByteRun.concat hx hl hh).width_eq wf he
    have hsymbols : ¬ 1 < (g.symbols e).size := by
      rw [(Graph.ByteRun.concat hx hl hh).symbols_size wf he]
      exact Nat.lt_irrefl 1
    rw [runType_of_two_le (by omega)] at htype
    rw [lower_eq wf he, nodeCode, hx]
    refine bind_eq_ok_iff.2 ⟨_, hleft, bind_eq_ok_iff.2 ⟨_, hright, ?_⟩⟩
    unfold lowerConcat
    rw [if_neg (by simp [hpadding]), hwidth, htype]
    refine bind_eq_ok_iff.2 ⟨_, rfl, ?_⟩
    rw [if_neg hsymbols]
    refine simplify_neighbours (by omega) (by omega) (by omega) ?_
    rw [← htype, hltbits, hrtbits]
    congr 1
    omega

theorem lower_extract_byteRun (sized : env.types.Sized) (hbyte : env.types.typeFor 8 = .ok .byte)
    (wf : g.WellFormed) {x : NodeId} (hx : x < g.size) {k m : Nat}
    (hexpr : g.expr x = .extract e (8 * k) (8 * m))
    (hname : env.options.resolve name = env.options.packetSymbol)
    (run : g.ByteRun name start count e)
    (look : ∀ i < count, env.chunks.lookup (start + i) = some (s, v))
    (htype : env.runType m = .ok type) :
    env.lower g x = .ok (simplifyRead v type (.index (start + k - s))) := by
  have he : e < g.size := wf.child_lt_size hx (by simp [hexpr, Expr.children])
  obtain ⟨whole, hwhole⟩ := env.exists_runType run.count_pos
  have hbits := bits_runType sized hwhole
  obtain ⟨-, hfrom, -⟩ := ChunkTable.lookup_eq_some (look 0 run.count_pos)
  have hlower := lower_byteRun sized wf he hname run look hwhole
  have haligned : 8 * k % 8 = 0 := Nat.mul_mod_right 8 k
  have hwidth : env.types.typeFor (8 * m) = .ok type := (runType_of_byte hbyte m).symm.trans htype
  have hsum : start + k - s = start - s + k := by omega
  by_cases hall : k = 0 ∧ m = count
  · obtain ⟨rfl, rfl⟩ := hall
    obtain rfl : whole = type := Except.ok.inj (hwhole.symm.trans htype)
    refine (lower_extract_eq_ok_iff wf hx hexpr).2
      ⟨haligned, _, _, hlower, ?_, simplify_simplifyRead⟩
    refine bind_eq_ok_iff.2 ⟨_, part_simplifyRead, if_pos ⟨Nat.mul_zero 8, ?_⟩⟩
    rw [bits_simplifyRead, hbits]
  · refine (lower_extract_eq_ok_iff wf hx hexpr).2
      ⟨haligned, _, .read v type (.index (start - s + 8 * k / 8)), hlower, ?_, ?_⟩
    · refine bind_eq_ok_iff.2 ⟨_, part_simplifyRead, (if_neg fun h => hall ?_).trans ?_⟩
      · rw [bits_simplifyRead, hbits] at h
        omega
      · exact bind_eq_ok_iff.2 ⟨type, hwidth, slice_simplifyRead⟩
    · rw [hsum, Nat.mul_div_cancel_left k (by decide)]
      rfl

/-- Packet bytes that are read one by one, inside one chunk and through one name, and put together
by concats of any shape are one read of the variable of the chunk, or the variable if they are all
of it. Whole bytes of them are lowered to the code of the bytes read alone, if a byte has the type
it has by default. -/
theorem lower_readsRun (sized : env.types.Sized) (declared : env.chunks.Declared)
    (wf : g.WellFormed) (he : e < g.size)
    (hname : env.options.resolve name = env.options.packetSymbol) (hcount : 2 ≤ count)
    (run : g.ReadsRun name start count e)
    (inside : ∀ i < count, env.chunks.Covers s v (start + i)) :
    ∃ type, env.types.typeFor (8 * count) = .ok type ∧
      env.lower g e = .ok (if start = s ∧ v.type.bits = 8 * count then .var v
        else .read v type (.index (start - s))) ∧
      (env.types.typeFor 8 = .ok .byte → ∀ x < g.size, ∀ k m,
        g.expr x = .extract e (8 * k) (8 * m) →
        ∀ r < g.roots.size, env.options.resolve (g.root r).name = env.options.packetSymbol →
          start + k + m ≤ 2 ^ 32 → ∃ bytes h code, Build.readBytes r (start + k) m g = .ok bytes h ∧
            env.lower h bytes = .ok code ∧ env.lower g x = .ok code) := by
  have look : ∀ i < count, env.chunks.lookup (start + i) = some (s, v) :=
    fun i hi => declared.apart.lookup_eq_some_iff.2 (inside i hi)
  have run := run.byteRun wf
  obtain ⟨type, htype⟩ := env.exists_runType run.count_pos
  refine ⟨type, (runType_of_two_le hcount).symm.trans htype, ?_, ?_⟩
  · have hfrom := (inside 0 (by omega)).2.1
    rw [lower_byteRun sized wf he hname run look htype, simplifyRead_index,
      bits_runType sized htype]
    congr 1
    apply if_congr _ rfl rfl
    omega
  · intro hbyte x hx k m hexpr r hr hpacket hword
    obtain ⟨hin, hpos, -⟩ : 8 * k + 8 * m ≤ g.width e ∧ 0 < 8 * m ∧ _ := by
      have hsort := wf.sortRule hx
      rwa [hexpr] at hsort
    rw [run.width_eq wf he] at hin
    obtain ⟨bytes, h, hbytes, grown, hlt, hrun⟩ :=
      Build.readBytes_run wf hr (show 0 < m by omega) (show start + k + m ≤ 2 ^ 32 from hword)
    have look' : ∀ i < m, env.chunks.lookup (start + k + i) = some (s, v) := by
      intro i hi
      rw [Nat.add_assoc]
      exact look (k + i) (by omega)
    obtain ⟨part, hpart⟩ := env.exists_runType (show 0 < m by omega)
    exact ⟨bytes, h, _, hbytes, lower_byteRun sized grown.wellFormed hlt hpacket hrun look' hpart,
      lower_extract_byteRun sized hbyte wf hx hexpr hname run look hpart⟩

/-- Four bytes of an Ethernet header, put together as two pairs, with a declared type for four
bytes. An extract takes one byte of each pair. -/
theorem lower_readsRun_of_pairs :
    let ether : Variable := ⟨"ether", .array .byte 14⟩
    let env : Environment :=
      { chunks := ({} : ChunkTable).attempt 4 ether
        types := ⟨({} : Std.TreeMap Nat Ty).insert 32 (.array .byte 4)⟩ }
    let g : Graph :=
      { nodes := #[⟨.constant ⟨6, 32⟩, 32⟩, ⟨.read 0 0, 8⟩, ⟨.constant ⟨7, 32⟩, 32⟩, ⟨.read 0 2, 8⟩,
          ⟨.concat 3 1, 16⟩, ⟨.constant ⟨8, 32⟩, 32⟩, ⟨.read 0 5, 8⟩, ⟨.constant ⟨9, 32⟩, 32⟩,
          ⟨.read 0 7, 8⟩, ⟨.concat 8 6, 16⟩, ⟨.concat 9 4, 32⟩, ⟨.extract 10 8 16, 16⟩]
        roots := #[.symbolic "packet_chunks" 64] }
    env.types.Sized ∧ env.chunks.Declared ∧ g.WellFormed ∧ 10 < g.size ∧
      env.options.resolve "packet_chunks" = env.options.packetSymbol ∧ 2 ≤ 4 ∧
      g.ReadsRun "packet_chunks" 6 4 10 ∧ (∀ i < 4, env.chunks.Covers 4 ether (6 + i)) ∧
      env.lower g 10 = .ok (.read ether (.array .byte 4) (.index 2)) ∧
      g.expr 11 = .extract 10 (8 * 1) (8 * 2) ∧
      env.lower g 11 = .ok (.read ether (.unsigned 16) (.index 3)) ∧
      ∃ bytes h, Build.readBytes 0 (6 + 1) 2 g = .ok bytes h ∧
        env.lower h bytes = .ok (.read ether (.unsigned 16) (.index 3)) := by
  intro ether env g
  have sized : env.types.Sized :=
    TypeContext.sized_empty.declare (show ({} : TypeContext).declare 32 (.array .byte 4) =
      .ok env.types from rfl)
  have declared : env.chunks.Declared := .attempt .empty 4 ether (by decide)
  have wf : g.WellFormed := by decide +kernel
  have name : env.options.resolve "packet_chunks" = env.options.packetSymbol := by decide +kernel
  have run : g.ReadsRun "packet_chunks" 6 4 10 := by
    unfold Graph.ReadsRun
    decide +kernel
  have inside : ∀ i < 4, env.chunks.Covers 4 ether (6 + i) := by
    have covered : ∀ i < 4, env.chunks.chunks[4]? = some ether ∧ 4 ≤ 6 + i ∧
        6 + i < 4 + ether.type.bytes := by
      decide +kernel
    exact covered
  obtain ⟨type, htype, field, part⟩ :=
    lower_readsRun sized declared wf (by decide) name (by decide) run inside
  have word : env.types.typeFor (8 * 4) = .ok (.array .byte 4) := by decide +kernel
  obtain rfl := Except.ok.inj (word.symm.trans htype)
  obtain ⟨bytes, h, code, hbytes, hread, hextract⟩ :=
    part (by decide +kernel) 11 (by decide) 1 2 rfl 0 (by decide) name (by decide)
  have middle : env.lower g 11 = .ok (.read ether (.unsigned 16) (.index 3)) := by decide +kernel
  obtain rfl := Except.ok.inj (middle.symm.trans hextract)
  exact ⟨sized, declared, wf, by decide, name, by decide, run, inside, field, rfl, middle, bytes,
    h, hbytes, hread⟩

/-- With a type of 32 bits in the place of that for 16, two bytes are a read of four, and the byte
after them is no longer next to it. -/
theorem lower_run_of_unsized_type :
    let ether : Variable := ⟨"ether", .array .byte 14⟩
    let env : Environment :=
      { chunks := ({} : ChunkTable).attempt 0 ether
        types := ⟨({} : Std.TreeMap Nat Ty).insert 16 (.unsigned 32)⟩ }
    let g : Graph :=
      { nodes := #[⟨.constant ⟨0, 32⟩, 32⟩, ⟨.read 0 0, 8⟩, ⟨.constant ⟨1, 32⟩, 32⟩, ⟨.read 0 2, 8⟩,
          ⟨.concat 3 1, 16⟩, ⟨.constant ⟨2, 32⟩, 32⟩, ⟨.read 0 5, 8⟩, ⟨.concat 6 4, 24⟩]
        roots := #[.symbolic "packet_chunks" 64] }
    env.chunks.Declared ∧ g.WellFormed ∧ 7 < g.size ∧
      env.options.resolve "packet_chunks" = env.options.packetSymbol ∧
      g.ReadsRun "packet_chunks" 0 3 7 ∧ (∀ i < 3, env.chunks.Covers 0 ether (0 + i)) ∧
      env.types.typeFor (8 * 3) = .ok (.unsigned 24) ∧
      env.lower g 7 ≠ .ok (.read ether (.unsigned 24) (.index 0)) := by
  intro ether env g
  have run : g.ReadsRun "packet_chunks" 0 3 7 := by
    unfold Graph.ReadsRun
    decide +kernel
  have covered : ∀ i < 3, env.chunks.chunks[0]? = some ether ∧ 0 ≤ 0 + i ∧
      0 + i < 0 + ether.type.bytes := by
    decide +kernel
  have lowered : env.lower g 7 = .ok (.concat (.read ether .byte (.index 2))
      (.read ether (.unsigned 32) (.index 0)) (.unsigned 24)) := by decide +kernel
  refine ⟨.attempt .empty 0 ether (by decide), by decide +kernel, by decide, by decide +kernel,
    run, covered, by decide +kernel, ?_⟩
  rw [lowered]
  exact fun h => by cases h

end Environment

end BitvectorCode
