import BitvectorCode.Lowering.Chunks
import BitvectorCode.Proofs.Outcome

/-!
# Declared chunks lie apart

However a table was declared, every chunk ends before the next one starts. So the last chunk that
starts at or before an offset is the only one that can hold the byte there, and the last chunk that
starts before the end of a new one is the only one that needs a look for an overlap. A new chunk
takes no byte from another one, unless it holds none itself: then it may take the place of the chunk
that starts where it does. All of this is about chunks whose ends a 64-bit word can hold.
-/

namespace BitvectorCode

namespace ChunkTable

/-- The chunk `v` at `start` holds the packet byte at `offset`. -/
def Covers (table : ChunkTable) (start : Nat) (v : Variable) (offset : Nat) : Prop :=
  table.chunks[start]? = some v ∧ start ≤ offset ∧ offset < start + v.type.bytes

/-- Some chunk starts before the end of a variable at `offset` and ends after its start. -/
def Overlaps (table : ChunkTable) (offset : Nat) (v : Variable) : Prop :=
  ∃ start u, table.chunks[start]? = some u ∧ start < offset + v.type.bytes ∧
    offset < start + u.type.bytes

/-- Every chunk ends before the ones that start after it. -/
def Apart (table : ChunkTable) : Prop :=
  ∀ (start : Nat) (v : Variable) (next : Nat) (w : Variable), table.chunks[start]? = some v →
    table.chunks[next]? = some w → start < next → start + v.type.bytes ≤ next

/-- The table after a call of `declare`, whether it is accepted or rejected. -/
def attempt (table : ChunkTable) (offset : Nat) (v : Variable) : ChunkTable :=
  match declare offset v table with
  | .ok _ new | .error _ new => new

/-- The tables that calls of `declare` make of the empty one, whether they are accepted or rejected,
if the ends of all variables fit a word. -/
inductive Declared : ChunkTable → Prop
  | empty : Declared {}
  | attempt {table : ChunkTable} (h : Declared table) (offset : Nat) (v : Variable)
      (fits : offset + v.type.bytes < UInt64.size) : Declared (table.attempt offset v)

variable {table new : ChunkTable} {offset start n : Nat} {u v : Variable}

theorem mem_filter_iff : (start, v) ∈ table.chunks.toList.filter (·.1 < n) ↔
    table.chunks[start]? = some v ∧ start < n := by
  simp [Std.TreeMap.mem_toList_iff_getElem?_eq_some]

theorem pairwise_filter : (table.chunks.toList.filter (·.1 < n)).Pairwise fun a b => a.1 < b.1 :=
  List.Pairwise.filter _ (Std.TreeMap.ordered_keys_toList.imp fun h => Nat.compare_eq_lt.1 h)

theorem lastBefore?_eq_some (h : table.lastBefore? n = some (start, v)) :
    table.chunks[start]? = some v ∧ start < n ∧
      ∀ s u, table.chunks[s]? = some u → s < n → s ≤ start := by
  obtain ⟨earlier, hlist⟩ := List.getLast?_eq_some_iff.1 h
  obtain ⟨hv, hlt⟩ :=
    mem_filter_iff.1 (hlist ▸ List.mem_append_right earlier (List.mem_singleton_self _))
  refine ⟨hv, hlt, fun s u hu hs => ?_⟩
  have hmem := mem_filter_iff.2 ⟨hu, hs⟩
  have sorted : (table.chunks.toList.filter (·.1 < n)).Pairwise fun a b => a.1 < b.1 :=
    pairwise_filter
  rw [hlist] at hmem sorted
  obtain hmem | hmem := List.mem_append.1 hmem
  · exact Nat.le_of_lt ((List.pairwise_append.1 sorted).2.2 _ hmem _ (List.mem_singleton_self _))
  · cases List.mem_singleton.1 hmem
    exact Nat.le_refl _

theorem exists_lastBefore? (hu : table.chunks[start]? = some u) (hs : start < n) :
    ∃ last v, table.lastBefore? n = some (last, v) ∧ start ≤ last := by
  cases hfound : table.lastBefore? n with
  | none =>
    have hmem := mem_filter_iff.2 ⟨hu, hs⟩
    rw [List.getLast?_eq_none_iff.1 hfound] at hmem
    cases hmem
  | some found => exact ⟨found.1, found.2, rfl, (lastBefore?_eq_some hfound).2.2 start u hu hs⟩

theorem lookup_eq_some (h : table.lookup offset = some (start, v)) :
    table.Covers start v offset := by
  obtain ⟨hlast, hcovers⟩ := Option.filter_eq_some_iff.1 h
  obtain ⟨hv, hstart, -⟩ := lastBefore?_eq_some hlast
  exact ⟨hv, Nat.le_of_lt_succ hstart, of_decide_eq_true hcovers⟩

theorem Apart.covers_unique {other : Nat} {w : Variable} (apart : table.Apart)
    (h : table.Covers start v offset) (h' : table.Covers other w offset) :
    other = start ∧ w = v := by
  obtain ⟨hv, hle, hlt⟩ := h
  obtain ⟨hw, hle', hlt'⟩ := h'
  obtain rfl : other = start := by
    rcases Nat.lt_trichotomy other start with h | h | h
    · have := apart other w start v hw hv h
      omega
    · exact h
    · have := apart start v other w hv hw h
      omega
  rw [hv] at hw
  exact ⟨rfl, (Option.some.inj hw).symm⟩

theorem Apart.lookup_eq_some_iff (apart : table.Apart) :
    table.lookup offset = some (start, v) ↔ table.Covers start v offset := by
  refine ⟨lookup_eq_some, fun covers => ?_⟩
  obtain ⟨hv, hle, hlt⟩ := covers
  obtain ⟨last, w, hlast, hstart⟩ := exists_lastBefore? hv (Nat.lt_succ_of_le hle)
  obtain ⟨hw, hbefore, -⟩ := lastBefore?_eq_some hlast
  obtain rfl | hafter := Nat.eq_or_lt_of_le hstart
  · rw [hv] at hw
    cases hw
    exact Option.filter_eq_some_iff.2 ⟨hlast, decide_eq_true hlt⟩
  · have := apart start v last w hv hw hafter
    omega

/-- What `declare` looks at: the last chunk that starts before the end of the new one. -/
def blocks (table : ChunkTable) (offset : Nat) (v : Variable) : Bool :=
  (table.lastBefore? (offset + v.type.bytes)).any fun last => offset < last.1 + last.2.type.bytes

theorem declare_of_blocks (h : table.blocks offset v = true) :
    declare offset v table = .error (.chunkOverlap v.name offset) table := by
  unfold blocks at h
  rw [declare, get_bind_apply]
  simp only [h, if_true]
  rfl

theorem declare_of_not_blocks (h : table.blocks offset v = false) :
    declare offset v table = .ok () ⟨table.chunks.insert offset v⟩ := by
  unfold blocks at h
  rw [declare, get_bind_apply]
  simp only [h, Bool.false_eq_true, if_false]
  rfl

theorem declare_eq_ok_attempt (h : table.blocks offset v = false) :
    declare offset v table = .ok () (table.attempt offset v) := by
  simp [attempt, declare_of_not_blocks h]

/-- Whether a new chunk overlaps any chunk can be told from the last one that starts before its
end. -/
theorem Apart.overlaps_iff_blocks (apart : table.Apart) :
    table.Overlaps offset v ↔ table.blocks offset v = true := by
  simp only [blocks, Option.any_eq_true, decide_eq_true_eq, Prod.exists]
  constructor
  · rintro ⟨start, u, hu, hstart, hend⟩
    obtain ⟨last, w, hlast, hle⟩ := exists_lastBefore? hu hstart
    obtain ⟨hw, -, -⟩ := lastBefore?_eq_some hlast
    refine ⟨last, w, hlast, ?_⟩
    obtain rfl | hlt := Nat.eq_or_lt_of_le hle
    · rw [hu] at hw
      cases hw
      exact hend
    · have := apart start u last w hu hw hlt
      omega
  · rintro ⟨last, u, hlast, hend⟩
    obtain ⟨hu, hbefore, -⟩ := lastBefore?_eq_some hlast
    exact ⟨last, u, hu, hbefore, hend⟩

theorem Apart.declare_of_overlaps (apart : table.Apart) (h : table.Overlaps offset v) :
    declare offset v table = .error (.chunkOverlap v.name offset) table :=
  declare_of_blocks (apart.overlaps_iff_blocks.1 h)

theorem Apart.declare_of_not_overlaps (apart : table.Apart) (h : ¬ table.Overlaps offset v) :
    declare offset v table = .ok () ⟨table.chunks.insert offset v⟩ :=
  declare_of_not_blocks (Bool.eq_false_iff.2 fun blocked => h (apart.overlaps_iff_blocks.2 blocked))

theorem Apart.declare_eq_error_iff (apart : table.Apart) {err : Error} :
    declare offset v table = .error err new ↔
      table.Overlaps offset v ∧ err = .chunkOverlap v.name offset ∧ new = table := by
  by_cases h : table.Overlaps offset v
  · simp [apart.declare_of_overlaps h, h, @eq_comm _ _ err, @eq_comm _ _ new]
  · simp [apart.declare_of_not_overlaps h, h]

theorem Apart.declare_eq_ok_iff (apart : table.Apart) :
    declare offset v table = .ok () new ↔
      ¬ table.Overlaps offset v ∧ new = ⟨table.chunks.insert offset v⟩ := by
  by_cases h : table.Overlaps offset v
  · simp [apart.declare_of_overlaps h, h]
  · simp [apart.declare_of_not_overlaps h, h, eq_comm]

theorem Apart.attempt_of_overlaps (apart : table.Apart) (h : table.Overlaps offset v) :
    table.attempt offset v = table := by
  simp [ChunkTable.attempt, apart.declare_of_overlaps h]

theorem Apart.attempt_of_not_overlaps (apart : table.Apart) (h : ¬ table.Overlaps offset v) :
    table.attempt offset v = ⟨table.chunks.insert offset v⟩ := by
  simp [ChunkTable.attempt, apart.declare_of_not_overlaps h]

theorem getElem?_insert {s : Nat} : (table.chunks.insert offset v)[s]? =
    if s = offset then some v else table.chunks[s]? := by
  rw [Std.TreeMap.getElem?_insert]
  simp only [Nat.compare_eq_eq, @eq_comm _ offset s]

theorem Apart.insert (apart : table.Apart) (h : ¬ table.Overlaps offset v) :
    Apart ⟨table.chunks.insert offset v⟩ := by
  intro start u next w hu hw hlt
  simp only [getElem?_insert] at hu hw
  split at hu <;> split at hw
  · omega
  · next hs hn =>
    cases hu
    subst hs
    exact Nat.le_of_not_lt fun hend => h ⟨next, w, hw, hend, by omega⟩
  · next hs hn =>
    cases hw
    subst hn
    exact Nat.le_of_not_lt fun hend => h ⟨start, u, hu, by omega, hend⟩
  · exact apart start u next w hu hw hlt

theorem Apart.attempt (apart : table.Apart) : (table.attempt offset v).Apart := by
  by_cases h : table.Overlaps offset v
  · rwa [apart.attempt_of_overlaps h]
  · rw [apart.attempt_of_not_overlaps h]
    exact apart.insert h

theorem Declared.apart (h : table.Declared) : table.Apart := by
  induction h with
  | empty =>
    intro start v next w hv
    simp at hv
  | attempt _ offset v _ ih => exact ih.attempt

/-- The ends that `declare` and `lookup` compare with fit a word. -/
theorem Declared.end_lt (h : table.Declared) (hv : table.chunks[start]? = some v) :
    start + v.type.bytes < UInt64.size := by
  induction h generalizing start v with
  | empty => simp at hv
  | @attempt table h offset w fits ih =>
    by_cases hw : table.Overlaps offset w
    · rw [h.apart.attempt_of_overlaps hw] at hv
      exact ih hv
    · rw [h.apart.attempt_of_not_overlaps hw] at hv
      simp only [getElem?_insert] at hv
      split at hv
      · next hs =>
        cases hv
        exact hs ▸ fits
      · exact ih hv

/-- However a table was declared, every chunk ends before the next one starts, and a byte is looked
up to the one chunk that covers it. A chunk is rejected, and the table left as it was, exactly when
it overlaps another. -/
theorem Declared.chunks_apart (h : table.Declared) :
    (table.Apart ∧ ∀ (start : Nat) (v : Variable), table.chunks[start]? = some v →
      start + v.type.bytes < UInt64.size) ∧
    (∀ (offset start : Nat) (v : Variable),
      table.lookup offset = some (start, v) ↔ table.Covers start v offset) ∧
    (∀ (offset start other : Nat) (v w : Variable), table.Covers start v offset →
      table.Covers other w offset → other = start ∧ w = v) ∧
    ∀ (offset : Nat) (v : Variable), offset + v.type.bytes < UInt64.size →
      ((∃ err new, declare offset v table = .error err new) ↔ table.Overlaps offset v) ∧
      ∀ err new, declare offset v table = .error err new →
        err = .chunkOverlap v.name offset ∧ new = table := by
  have apart := h.apart
  refine ⟨⟨apart, fun _ _ => h.end_lt⟩, fun _ _ _ => apart.lookup_eq_some_iff,
    fun _ _ _ _ _ => apart.covers_unique, fun offset v _ => ⟨?_, fun err new herr => ?_⟩⟩
  · simp [apart.declare_eq_error_iff]
  · exact (apart.declare_eq_error_iff.1 herr).2

/-- Even an empty mark is rejected inside a header. -/
theorem declare_empty_mark_inside_header :
    let bytes (name : String) (count : Nat) : Variable := ⟨name, .array .byte count⟩
    let table := (attempt {} 0 (bytes "ether" 14)).attempt 14 (bytes "ipv4" 20)
    table.Declared ∧ 20 + (bytes "mark" 0).type.bytes < UInt64.size ∧
      table.Overlaps 20 (bytes "mark" 0) ∧
      ∃ err, declare 20 (bytes "mark" 0) table = .error err table := by
  intro bytes table
  have declared : table.Declared := .attempt (.attempt .empty _ _ (by decide)) _ _ (by decide)
  have overlaps : table.Overlaps 20 (bytes "mark" 0) :=
    ⟨14, bytes "ipv4" 20, by decide +kernel, by decide, by decide⟩
  have fits : 20 + (bytes "mark" 0).type.bytes < UInt64.size := by decide
  obtain ⟨rejected_iff, kept⟩ := declared.chunks_apart.2.2.2 20 (bytes "mark" 0) fits
  obtain ⟨err, new, herr⟩ := rejected_iff.2 overlaps
  obtain rfl : new = table := (kept err new herr).2
  exact ⟨declared, fits, overlaps, err, herr⟩

theorem Covers.overlaps {o : Nat} (h : table.Covers start u o) (hfrom : offset ≤ o)
    (hto : o < offset + v.type.bytes) : table.Overlaps offset v :=
  ⟨start, u, h.1, by have := h.2.1; omega, by have := h.2.2; omega⟩

theorem covers_insert {o : Nat} : Covers ⟨table.chunks.insert offset v⟩ start u o ↔
    start = offset ∧ u = v ∧ offset ≤ o ∧ o < offset + v.type.bytes ∨
      start ≠ offset ∧ table.Covers start u o := by
  unfold Covers
  rw [getElem?_insert]
  split
  · next hs =>
    subst hs
    constructor
    · rintro ⟨hv, hrange⟩
      cases hv
      exact .inl ⟨rfl, rfl, hrange⟩
    · rintro (⟨-, rfl, hrange⟩ | ⟨hne, -⟩)
      · exact ⟨rfl, hrange⟩
      · exact absurd rfl hne
  · next hs => simp [hs]

/-- After a new chunk is inserted, its bytes are looked up to it and all others as before, except
those of the chunk whose place it takes. -/
theorem Apart.lookup_insert (apart : table.Apart) (hfree : ¬ table.Overlaps offset v) {o : Nat} :
    lookup ⟨table.chunks.insert offset v⟩ o = some (start, u) ↔
      start = offset ∧ u = v ∧ offset ≤ o ∧ o < offset + v.type.bytes ∨
        start ≠ offset ∧ table.lookup o = some (start, u) := by
  rw [(apart.insert hfree).lookup_eq_some_iff, apart.lookup_eq_some_iff, covers_insert]

/-- A new chunk takes no byte from another one, unless it holds none and another one holds the byte
where it starts. -/
theorem Apart.keeps_insert_iff (apart : table.Apart) (hfree : ¬ table.Overlaps offset v) :
    (∀ o found, table.lookup o = some found →
      lookup ⟨table.chunks.insert offset v⟩ o = some found) ↔
      (v.type.bytes = 0 → table.lookup offset = none) := by
  constructor
  · intro keeps hempty
    rw [Option.eq_none_iff_forall_ne_some]
    rintro ⟨start, u⟩ hfound
    obtain ⟨-, -, -, hlt⟩ | ⟨hne, -⟩ := (apart.lookup_insert hfree).1 (keeps _ _ hfound)
    · omega
    · -- A chunk that starts earlier and holds the byte would overlap even an empty one.
      obtain ⟨hu, hle, hlt⟩ := lookup_eq_some hfound
      exact hfree ⟨start, u, hu, by omega, hlt⟩
  · intro free o ⟨start, u⟩ hfound
    refine (apart.lookup_insert hfree).2 (.inr ⟨?_, hfound⟩)
    rintro rfl
    obtain ⟨hu, hle, hlt⟩ := lookup_eq_some hfound
    have hempty : v.type.bytes = 0 :=
      Nat.eq_zero_of_not_pos fun hv => hfree ⟨start, u, hu, by omega, by omega⟩
    have hstart : table.lookup start = some (start, u) :=
      apart.lookup_eq_some_iff.2 ⟨hu, Nat.le_refl _, by omega⟩
    rw [free hempty] at hstart
    cases hstart

theorem Apart.gains_insert_iff (apart : table.Apart) (hfree : ¬ table.Overlaps offset v) {o : Nat} :
    table.lookup o = none ∧ (lookup ⟨table.chunks.insert offset v⟩ o).isSome ↔
      offset ≤ o ∧ o < offset + v.type.bytes := by
  constructor
  · rintro ⟨hnone, hsome⟩
    obtain ⟨⟨start, u⟩, hfound⟩ := Option.isSome_iff_exists.1 hsome
    obtain ⟨-, -, hrange⟩ | ⟨-, hold⟩ := (apart.lookup_insert hfree).1 hfound
    · exact hrange
    · rw [hnone] at hold
      cases hold
  · rintro ⟨hfrom, hto⟩
    have hfound := (apart.lookup_insert hfree).2 (.inl ⟨rfl, rfl, hfrom, hto⟩)
    refine ⟨?_, Option.isSome_iff_exists.2 ⟨_, hfound⟩⟩
    rw [Option.eq_none_iff_forall_ne_some]
    exact fun found hold => hfree ((lookup_eq_some hold).overlaps hfrom hto)

/-- A chunk that is accepted covers its own bytes, which no chunk covered before. All bytes covered
before stay with their chunks exactly if the new one holds a byte or no chunk holds the byte where
it starts. -/
theorem Declared.declare_keeps_coverage (h : table.Declared)
    (fits : offset + v.type.bytes < UInt64.size) (hok : declare offset v table = .ok () new) :
    new.Declared ∧
    ((∀ o found, table.lookup o = some found → new.lookup o = some found) ↔
      (v.type.bytes = 0 → table.lookup offset = none)) ∧
    (∀ o, table.lookup o = none ∧ (new.lookup o).isSome ↔
      offset ≤ o ∧ o < offset + v.type.bytes) ∧
    ∀ (o start : Nat) (u : Variable), new.lookup o = some (start, u) ↔
      start = offset ∧ u = v ∧ offset ≤ o ∧ o < offset + v.type.bytes ∨
        start ≠ offset ∧ table.lookup o = some (start, u) := by
  have apart := h.apart
  have declared : (table.attempt offset v).Declared := h.attempt offset v fits
  obtain ⟨hfree, rfl⟩ := apart.declare_eq_ok_iff.1 hok
  rw [apart.attempt_of_not_overlaps hfree] at declared
  exact ⟨declared, apart.keeps_insert_iff hfree, fun _ => apart.gains_insert_iff hfree,
    fun _ _ _ => apart.lookup_insert hfree⟩

/-- A header takes the place of an empty mark between two others, and each keeps its bytes. -/
theorem declare_over_empty_mark :
    let bytes (name : String) (count : Nat) : Variable := ⟨name, .array .byte count⟩
    let headers := (attempt {} 0 (bytes "ether" 14)).attempt 34 (bytes "tcp" 20)
    let table := headers.attempt 14 (bytes "mark" 0)
    let new := table.attempt 14 (bytes "ipv4" 20)
    table.Declared ∧ 14 + (bytes "ipv4" 20).type.bytes < UInt64.size ∧
      declare 14 (bytes "ipv4" 20) table = .ok () new ∧
      table.chunks[14]? = some (bytes "mark" 0) ∧
      ((bytes "ipv4" 20).type.bytes = 0 → table.lookup 14 = none) ∧
      ∀ o found, table.lookup o = some found → new.lookup o = some found := by
  intro bytes headers table new
  have declared : headers.Declared := .attempt (.attempt .empty _ _ (by decide)) _ _ (by decide)
  have declared : table.Declared := declared.attempt _ _ (by decide)
  have fits : 14 + (bytes "ipv4" 20).type.bytes < UInt64.size := by decide
  have hok : declare 14 (bytes "ipv4" 20) table = .ok () new :=
    declare_eq_ok_attempt (by decide +kernel)
  have free : (bytes "ipv4" 20).type.bytes = 0 → table.lookup 14 = none := by decide
  exact ⟨declared, fits, hok, by decide +kernel, free,
    (declared.declare_keeps_coverage fits hok).2.1.2 free⟩

/-- An empty variable takes the place of the header that starts where it does, and the bytes of the
header are covered no more. -/
theorem lookup_of_empty_over_header :
    let bytes (name : String) (count : Nat) : Variable := ⟨name, .array .byte count⟩
    let table := attempt {} 0 (bytes "ether" 14)
    let new := table.attempt 0 (bytes "mark" 0)
    table.Declared ∧ declare 0 (bytes "mark" 0) table = .ok () new ∧
      table.lookup 5 = some (0, bytes "ether" 14) ∧ new.lookup 5 = none := by
  intro bytes table new
  have hok : declare 0 (bytes "mark" 0) table = .ok () new :=
    declare_eq_ok_attempt (by decide +kernel)
  exact ⟨.attempt .empty _ _ (by decide), hok, by decide +kernel, by decide +kernel⟩

end ChunkTable

end BitvectorCode
