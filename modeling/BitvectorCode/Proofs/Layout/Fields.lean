import BitvectorCode.Proofs.Layout.Leaves
import Mathlib.Data.Finset.Sort
import Mathlib.Data.List.Sort
import Mathlib.Order.Interval.Finset.Nat

/-!
# Which fields make a struct

The check of a struct compares every field with the one before it by offset, and the size with the
end of the last one. For fields that are not empty and end where a 64-bit word can say it this
decides whether all of them lie apart within the size. The fields that are kept do not depend on the
order in which they were given, and the bytes that they take can be taken from the size.
-/

namespace BitvectorCode

def Field.span (field : Field Ty) : Finset Nat :=
  Finset.Ico field.offset (field.offset + field.type.bytes)

namespace StructLayout

/-- Fields of whole bytes that lie apart within `size` bytes. -/
structure Fit (fields : List (Field Ty)) (size : Nat) : Prop where
  aligned : ∀ field ∈ fields, field.type.bits % 8 = 0
  apart : fields.Pairwise fun a b => Disjoint a.span b.span
  inside : ∀ field ∈ fields, field.span ⊆ Finset.range size

variable {name : String} {fields given : List (Field Ty)} {size start : Nat} {layout : StructLayout}

theorem Fit.perm (h : Fit fields size) (hp : given.Perm fields) : Fit given size where
  aligned := fun field hf => h.aligned field (hp.mem_iff.1 hf)
  apart := (hp.pairwise_iff fun hab => hab.symm).2 h.apart
  inside := fun field hf => h.inside field (hp.mem_iff.1 hf)

theorem insertField_eq_orderedInsert (field : Field Ty) :
    insertField field fields = fields.orderedInsert (fun a b => a.offset ≤ b.offset) field := by
  induction fields with
  | nil => rfl
  | cons next rest ih => rw [insertField, ih, List.orderedInsert_cons]

theorem byOffset_eq_insertionSort :
    byOffset fields = fields.insertionSort fun a b => a.offset ≤ b.offset := by
  unfold byOffset List.insertionSort
  congr
  funext field rest
  exact insertField_eq_orderedInsert field

theorem byOffset_perm : (byOffset fields).Perm fields := by
  rw [byOffset_eq_insertionSort]
  exact List.perm_insertionSort _ fields

theorem byOffset_pairwise : (byOffset fields).Pairwise fun a b => a.offset ≤ b.offset := by
  rw [byOffset_eq_insertionSort]
  have : Std.Total fun a b : Field Ty => a.offset ≤ b.offset :=
    ⟨fun a b => Nat.le_total a.offset b.offset⟩
  have : IsTrans (Field Ty) fun a b => a.offset ≤ b.offset := ⟨fun _ _ _ => Nat.le_trans⟩
  exact List.pairwise_insertionSort _ fields

/-- The check passes within a size exactly if every field starts at or after the end of each one
before it. -/
theorem exists_checkFields_iff : (∃ span ≤ size, checkFields name start fields = .ok span) ↔
    start ≤ size ∧ fields.Pairwise (fun a b => a.offset + a.type.bytes ≤ b.offset) ∧
      ∀ field ∈ fields, start ≤ field.offset ∧ field.type.bits % 8 = 0 ∧
        field.offset + field.type.bytes ≤ size := by
  induction fields generalizing start with
  | nil => simp [checkFields]
  | cons field rest ih =>
    constructor
    · rintro ⟨span, hspan, h⟩
      obtain ⟨hstart, haligned, h⟩ := Ty.checkFields_cons_eq_ok_iff.1 h
      obtain ⟨hend, hrest, hall⟩ := ih.1 ⟨span, hspan, h⟩
      refine ⟨by omega, List.pairwise_cons.2 ⟨fun next hnext => (hall next hnext).1, hrest⟩,
        List.forall_mem_cons.2 ⟨⟨hstart, haligned, hend⟩, fun next hnext => ?_⟩⟩
      have := hall next hnext
      exact ⟨by omega, this.2⟩
    · rintro ⟨-, hpairs, hall⟩
      obtain ⟨hnext, hrest⟩ := List.pairwise_cons.1 hpairs
      obtain ⟨⟨hstart, haligned, hend⟩, hall⟩ := List.forall_mem_cons.1 hall
      obtain ⟨span, hspan, h⟩ :=
        ih.2 ⟨hend, hrest, fun next hn => ⟨hnext next hn, (hall next hn).2⟩⟩
      exact ⟨span, hspan, Ty.checkFields_cons_eq_ok_iff.2 ⟨hstart, haligned, h⟩⟩

theorem bytes_pos {type : Ty} (h : 0 < type.bits) : 0 < type.bytes := by
  unfold Ty.bytes
  omega

/-- A field that is not empty lies apart from one that does not start later if that one has ended
where it starts. -/
theorem disjoint_span_iff {a b : Field Ty} (hb : 0 < b.type.bits) (hle : a.offset ≤ b.offset) :
    Disjoint a.span b.span ↔ a.offset + a.type.bytes ≤ b.offset := by
  have hpos := bytes_pos hb
  simp only [Finset.disjoint_left, Field.span, Finset.mem_Ico]
  constructor
  · intro h
    by_contra hlt
    exact h (a := b.offset) ⟨hle, by omega⟩ ⟨Nat.le_refl _, by omega⟩
  · intro h byte hbyte hbyte'
    omega

theorem span_subset_range_iff {field : Field Ty} (h : 0 < field.type.bits) :
    field.span ⊆ Finset.range size ↔ field.offset + field.type.bytes ≤ size := by
  have hpos := bytes_pos h
  simp only [Finset.subset_iff, Field.span, Finset.mem_Ico, Finset.mem_range]
  constructor
  · intro hall
    have := @hall (field.offset + field.type.bytes - 1) ⟨by omega, by omega⟩
    omega
  · intro hle byte hbyte
    omega

/-- For fields by offset that are not empty, the check of neighbours and of the last end decides
whether they fit. -/
theorem exists_checkFields_iff_fit (hpos : ∀ field ∈ fields, 0 < field.type.bits)
    (sorted : fields.Pairwise fun a b => a.offset ≤ b.offset) :
    (∃ span ≤ size, checkFields name 0 fields = .ok span) ↔ Fit fields size := by
  have apart_iff : fields.Pairwise (fun a b => a.offset + a.type.bytes ≤ b.offset) ↔
      fields.Pairwise fun a b => Disjoint a.span b.span := by
    constructor
    · intro h
      refine (h.and sorted).imp_of_mem fun _ hb hab => ?_
      exact (disjoint_span_iff (hpos _ hb) hab.2).2 hab.1
    · intro h
      refine (h.and sorted).imp_of_mem fun _ hb hab => ?_
      exact (disjoint_span_iff (hpos _ hb) hab.2).1 hab.1
  rw [exists_checkFields_iff, apart_iff]
  constructor
  · rintro ⟨-, apart, hall⟩
    refine ⟨fun field hf => (hall field hf).2.1, apart, fun field hf => ?_⟩
    exact (span_subset_range_iff (hpos field hf)).2 (hall field hf).2.2
  · intro h
    refine ⟨Nat.zero_le _, h.apart, fun field hf => ⟨Nat.zero_le _, h.aligned field hf, ?_⟩⟩
    exact (span_subset_range_iff (hpos field hf)).1 (h.inside field hf)

theorem ofFields_eq_ok_iff : ofFields name fields size = .ok layout ↔
    (∃ span ≤ size, checkFields name 0 (byOffset fields) = .ok span) ∧
      layout = ⟨name, byOffset fields, size⟩ := by
  simp only [ofFields, bind_eq_ok_iff]
  constructor
  · rintro ⟨span, hspan, h⟩
    split at h
    · cases h
    · next hsize =>
      cases h
      exact ⟨⟨span, Nat.not_lt.1 hsize, hspan⟩, rfl⟩
  · rintro ⟨⟨span, hsize, hspan⟩, rfl⟩
    refine ⟨span, hspan, ?_⟩
    rw [if_neg (Nat.not_lt.2 hsize)]
    rfl

def taken (fields : List (Field Ty)) : Finset Nat :=
    fields.foldr (fun field bytes => field.span ∪ bytes) ∅

theorem mem_taken {byte : Nat} : byte ∈ taken fields ↔ ∃ field ∈ fields, byte ∈ field.span := by
  induction fields with
  | nil => simp [taken]
  | cons field rest ih => simp [taken, ← ih]

theorem card_taken (apart : fields.Pairwise fun a b => Disjoint a.span b.span) :
    (taken fields).card = (fields.map (·.type.bytes)).foldr (· + ·) 0 := by
  induction fields with
  | nil => rfl
  | cons field rest ih =>
    obtain ⟨hfield, hrest⟩ := List.pairwise_cons.1 apart
    have new : Disjoint field.span (taken rest) := by
      refine Finset.disjoint_right.2 fun byte hbyte => ?_
      obtain ⟨other, hother, hbyte⟩ := mem_taken.1 hbyte
      exact Finset.disjoint_right.1 (hfield other hother) hbyte
    have own : field.span.card = field.type.bytes := by
      rw [Field.span, Nat.card_Ico, Nat.add_sub_cancel_left]
    calc (taken (field :: rest)).card
      _ = field.span.card + (taken rest).card := Finset.card_union_of_disjoint new
      _ = ((field :: rest).map (·.type.bytes)).foldr (· + ·) 0 := by rw [own, ih hrest]; rfl

theorem taken_subset (h : Fit fields size) : taken fields ⊆ Finset.range size := by
  intro byte hbyte
  obtain ⟨field, hfield, hbyte⟩ := mem_taken.1 hbyte
  exact h.inside field hfield hbyte

/-- The fields of a layout take no more than its size, and what is left is padding. -/
theorem padding_eq_card (h : Fit layout.fields layout.size) : layout.covered ≤ layout.size ∧
    layout.padding =
      ((Finset.range layout.size).filter fun byte =>
        ∀ field ∈ layout.fields, byte ∉ field.span).card := by
  have hcovered : layout.covered = (taken layout.fields).card := (card_taken h.apart).symm
  have left : (Finset.range layout.size).filter
      (fun byte => ∀ field ∈ layout.fields, byte ∉ field.span) =
      Finset.range layout.size \ taken layout.fields := by
    ext byte
    simp [mem_taken]
  have hle := Finset.card_le_card (taken_subset h)
  rw [Finset.card_range] at hle
  rw [left, Finset.card_sdiff_of_subset (taken_subset h), Finset.card_range, padding, hcovered]
  exact ⟨hle, rfl⟩

theorem exists_ofFields_iff (hpos : ∀ field ∈ fields, 0 < field.type.bits) :
    (∃ layout, ofFields name fields size = .ok layout) ↔ Fit fields size := by
  have hsorted : ∀ field ∈ byOffset fields, 0 < field.type.bits :=
    fun field hfield => hpos field (byOffset_perm.mem_iff.1 hfield)
  simp only [ofFields_eq_ok_iff, exists_and_left, exists_eq, and_true]
  rw [exists_checkFields_iff_fit hsorted byOffset_pairwise]
  exact ⟨fun h => h.perm byOffset_perm.symm, fun h => h.perm byOffset_perm⟩

theorem byOffset_pairwise_lt (hpos : ∀ field ∈ fields, 0 < field.type.bits) (h : Fit fields size) :
    (byOffset fields).Pairwise fun a b => a.offset < b.offset := by
  refine (byOffset_pairwise.and (h.perm byOffset_perm).apart).imp_of_mem fun ha hb hab => ?_
  have hend := (disjoint_span_iff (hpos _ (byOffset_perm.mem_iff.1 hb)) hab.1).1 hab.2
  have := bytes_pos (hpos _ (byOffset_perm.mem_iff.1 ha))
  omega

theorem byOffset_eq_of_perm (hpos : ∀ field ∈ fields, 0 < field.type.bits) (h : Fit fields size)
    (hp : given.Perm fields) : byOffset given = byOffset fields := by
  have hpos' : ∀ field ∈ given, 0 < field.type.bits :=
    fun field hfield => hpos field (hp.mem_iff.1 hfield)
  refine List.Perm.eq_of_pairwise (fun a b _ _ hab hba => absurd hba (Nat.lt_asymm hab))
    (byOffset_pairwise_lt hpos' (h.perm hp)) (byOffset_pairwise_lt hpos h) ?_
  exact (byOffset_perm.trans hp).trans byOffset_perm.symm

/-- Fields that are not empty make a struct exactly if they fit its size. Its fields are then the
given ones by offset, in whatever order they were given, and its padding counts the bytes that no
field takes. -/
theorem ofFields_exact (hfields : ∀ field ∈ fields,
      0 < field.type.bits ∧ field.offset + field.type.bytes < UInt64.size) :
    ((∃ layout, ofFields name fields size = .ok layout) ↔ Fit fields size) ∧
    ∀ layout, ofFields name fields size = .ok layout →
      layout.name = name ∧ layout.size = size ∧ layout.fields.Perm fields ∧
      layout.fields.Pairwise (fun a b => a.offset < b.offset) ∧
      (∀ given, given.Perm fields → ofFields name given size = .ok layout) ∧
      layout.covered ≤ layout.size ∧ layout.padding =
        ((Finset.range size).filter fun byte => ∀ field ∈ fields, byte ∉ field.span).card := by
  have hpos : ∀ field ∈ fields, 0 < field.type.bits := fun field hfield => (hfields field hfield).1
  refine ⟨exists_ofFields_iff hpos, fun layout hlayout => ?_⟩
  have fit : Fit fields size := (exists_ofFields_iff hpos).1 ⟨layout, hlayout⟩
  obtain ⟨checked, rfl⟩ := ofFields_eq_ok_iff.1 hlayout
  obtain ⟨hcovered, hpadding⟩ :=
    @padding_eq_card ⟨name, byOffset fields, size⟩ (fit.perm byOffset_perm)
  simp only [byOffset_perm.mem_iff] at hpadding
  refine ⟨rfl, rfl, byOffset_perm, byOffset_pairwise_lt hpos fit, fun given hp => ?_,
    hcovered, hpadding⟩
  rw [ofFields_eq_ok_iff, byOffset_eq_of_perm hpos fit hp]
  exact ⟨checked, rfl⟩

/-- Two fields that were given from the last one to the first, with padding between them and at the
end. -/
theorem ofFields_exact_of_reversed_fields :
    let first : Field Ty := ⟨"kind", 0, .unsigned 16⟩
    let last : Field Ty := ⟨"peer", 4, .array .byte 3⟩
    (∀ field ∈ [last, first],
      0 < field.type.bits ∧ field.offset + field.type.bytes < UInt64.size) ∧ Fit [last, first] 8 ∧
      ∃ layout, ofFields "header" [last, first] 8 = .ok layout ∧
        ofFields "header" [first, last] 8 = .ok layout ∧ layout.fields.map (·.offset) = [0, 4] ∧
        layout.padding = 3 := by
  intro first last
  have hfields : ∀ field ∈ [last, first],
      0 < field.type.bits ∧ field.offset + field.type.bytes < UInt64.size := by decide
  have run : ofFields "header" [last, first] 8 = .ok ⟨"header", [first, last], 8⟩ := by
    decide +kernel
  obtain ⟨accepted, laid⟩ := @ofFields_exact "header" [last, first] 8 hfields
  obtain ⟨-, -, -, -, same, -, hpadding⟩ := laid _ run
  refine ⟨hfields, accepted.1 ⟨_, run⟩, _, run, same [first, last] (.swap ..), rfl, ?_⟩
  rw [hpadding]
  decide +kernel

end StructLayout

end BitvectorCode
