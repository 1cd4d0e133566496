import BitvectorCode.Proofs.Constant.Bits
import BitvectorCode.Proofs.Constant.Digits
import BitvectorCode.Proofs.Outcome
import BitvectorCode.SmtLib.Query

/-!
# Reading back a value

A solver says what value a node has in a model with a literal, between the name of the node and
parentheses and perhaps on a line of its own. The lines are joined again before the literal is
looked for. Nothing outside the literal looks like the start of one or like another digit, so what
is read is what was written: in any of the three bases, with digits in either case and with any
number of zeros in front.
-/

namespace BitvectorCode

namespace SmtLib

variable {base n : Nat}

/-- The character stands for the digit; letters may be of either case. -/
def IsDigitChar (d : Nat) (c : Char) : Prop := c = d.digitChar ∨ c = d.digitChar.toUpper

/-- The text is the number to the base, after any number of zeros. -/
def Writes (base n : Nat) (text : List Char) : Prop :=
  ∃ zeros, List.Forall₂ IsDigitChar (List.replicate zeros 0 ++ digits base n) text

/-- The literals that stand for a constant. -/
inductive Spells (c : Constant) : List Char → Prop
  | hexadecimal {text : List Char} (h : Writes 16 c.value text) : Spells c (['#', 'x'] ++ text)
  | binary {text : List Char} (h : Writes 2 c.value text) : Spells c (['#', 'b'] ++ text)
  | decimal {text width : List Char} (h : Writes 10 c.value text)
      (hwidth : Writes 10 c.bits width) :
    Spells c (['(', '_', ' ', 'b', 'v'] ++ text ++ [' '] ++ width ++ [')'])

def blanks : List Char := [' ', '\t', '\r', '\n']

/-- The text consists of the words one after another, with blanks before, between and after them. -/
inductive Spaced : List (List Char) → List Char → Prop
  | gap {text : List Char} (h : text ⊆ blanks) : Spaced [] text
  | word (gap : List Char) {word text : List Char} {words : List (List Char)} (h : gap ⊆ blanks)
    (rest : Spaced words text) : Spaced (word :: words) (gap ++ word ++ text)

/-- The answer says that there is a model, and gives a node the value that the literal stands
for. -/
def GivesValue (literal : List Char) (answer : String) : Prop :=
  ∃ lineBreak ∈ ["\n".toList, "\r\n".toList], ∃ number text, (∀ c ∈ number, c.isDigit) ∧
    Spaced [['('], ['('], 'e' :: number, literal, [')'], [')']] text ∧
    answer.toList = "sat".toList ++ lineBreak ++ text

section Digits

variable {d : Nat} {c : Char} {ds : List Nat} {text rest : List Char}

theorem IsDigitChar.digit?_eq (h : IsDigitChar d c) (hd : d < 16) : digit? c = some d := by
  have hall : ∀ d : Fin 16, digit? (d : Nat).digitChar = some d ∧
      digit? (d : Nat).digitChar.toUpper = some d := by
    decide
  rcases h with rfl | rfl
  · exact (hall ⟨d, hd⟩).1
  · exact (hall ⟨d, hd⟩).2

theorem ofDigits_of_forall₂ (h : List.Forall₂ (fun d c => digit? c = some d) ds text) :
    ofDigits base text = Nat.ofDigits base ds.reverse := by
  have hfold : ∀ value, text.foldl (fun value c => value * base + (digit? c).getD 0) value =
      ds.foldl (fun value d => value * base + d) value := by
    induction h with
    | nil => exact fun _ => rfl
    | cons hc _ ih =>
      intro value
      rw [List.foldl_cons, List.foldl_cons, hc]
      exact ih _
  rw [ofDigits, hfold, Nat.ofDigits_eq_foldr, List.foldr_reverse]
  simp only [Nat.cast_id, Nat.mul_comm base, Nat.add_comm]

theorem isDigitOf_of_forall₂ (h : List.Forall₂ (fun d c => d < base ∧ digit? c = some d) ds text) :
    ∀ c ∈ text, isDigitOf base c = true := by
  induction h with
  | nil => simp
  | cons hc _ ih =>
    refine List.forall_mem_cons.2 ⟨?_, ih⟩
    simpa [isDigitOf, hc.2] using hc.1

namespace Writes

theorem forall₂_digit? (h : Writes base n text) (hb : 2 ≤ base) (hbase : base ≤ 16) :
    ∃ zeros, List.Forall₂ (fun d c => d < base ∧ digit? c = some d)
      (List.replicate zeros 0 ++ digits base n) text := by
  obtain ⟨zeros, h⟩ := h
  refine ⟨zeros, ((List.forall₂_and_left _ _).2 ⟨fun d hd => ?_, h⟩).imp fun d c hc =>
    ⟨hc.1, hc.2.digit?_eq (Nat.lt_of_lt_of_le hc.1 hbase)⟩⟩
  rcases List.mem_append.1 hd with hd | hd
  · rw [List.eq_of_mem_replicate hd]
    lia
  · exact lt_of_mem_digits hb hd

theorem isDigitOf (h : Writes base n text) (hb : 2 ≤ base) (hbase : base ≤ 16) :
    ∀ c ∈ text, isDigitOf base c = true := by
  obtain ⟨zeros, h⟩ := h.forall₂_digit? hb hbase
  exact isDigitOf_of_forall₂ h

theorem not_mem (h : Writes base n text) (hb : 2 ≤ base) (hbase : base ≤ 16)
    (hc : digit? c = none) :
    c ∉ text := by
  intro hmem
  have := h.isDigitOf hb hbase c hmem
  simp [SmtLib.isDigitOf, hc] at this

theorem ne_nil (h : Writes base n text) (hb : 2 ≤ base) : text ≠ [] := by
  rintro rfl
  obtain ⟨zeros, h⟩ := h
  exact digits_ne_nil hb (List.append_eq_nil_iff.1 (List.forall₂_nil_right_iff.1 h)).2

theorem ofDigits_eq (h : Writes base n text) (hb : 2 ≤ base) (hbase : base ≤ 16) :
    ofDigits base text = n := by
  obtain ⟨zeros, h⟩ := h.forall₂_digit? hb hbase
  rw [ofDigits_of_forall₂ (h.imp fun _ _ hc => hc.2), List.reverse_append, List.reverse_replicate,
    Nat.ofDigits_append_replicate_zero, ofDigits_digits hb]

theorem number?_append (h : Writes base n text) (hb : 2 ≤ base) (hbase : base ≤ 16)
    (hrest : ∀ c ∈ rest.head?, digit? c = none) : number? base (text ++ rest) = some n := by
  have hstop : rest.takeWhile (SmtLib.isDigitOf base) = [] := by
    cases rest with
    | nil => rfl
    | cons c rest => simp [SmtLib.isDigitOf, hrest c rfl]
  have htake : (text ++ rest).takeWhile (SmtLib.isDigitOf base) = text := by
    rw [List.takeWhile_append_of_pos (h.isDigitOf hb hbase), hstop, List.append_nil]
  cases text with
  | nil => exact absurd rfl (h.ne_nil hb)
  | cons c text =>
    unfold number?
    rw [htake]
    exact congrArg some (h.ofDigits_eq hb hbase)

end Writes

end Digits

section Markers

variable {marker before rest text : List Char} {a x : Char}

theorem after?_eq_none (hx : x ∈ marker) (h : x ∉ text) : after? marker text = none := by
  induction text with
  | nil =>
    cases marker with
    | nil => cases hx
    | cons => rfl
  | cons c text ih =>
    rw [after?, if_neg, ih (List.not_mem_of_not_mem_cons h)]
    exact fun hmarker => h ((List.isPrefixOf_iff_prefix.1 hmarker).subset hx)

theorem after?_append (hx : x ∉ before) (hne : x ≠ a) :
    after? (a :: x :: marker) (before ++ (a :: x :: marker ++ rest)) = some rest := by
  induction before with
  | nil => simp [after?]
  | cons c before ih =>
    have hbefore := List.not_mem_of_not_mem_cons hx
    rw [List.cons_append, after?, if_neg, ih hbefore]
    intro hmarker
    obtain ⟨-, hmarker⟩ := List.cons_prefix_cons.1 (List.isPrefixOf_iff_prefix.1 hmarker)
    cases before with
    | nil => exact hne (List.cons_prefix_cons.1 hmarker).1
    | cons d before =>
      exact hbefore (by simp [(List.cons_prefix_cons.1 hmarker).1])

end Markers

theorem literalForms_eq :
    literalForms = [(['#', 'x'], 16), (['#', 'b'], 2), (['(', '_', ' ', 'b', 'v'], 10)] := rfl

/-- A literal is read from its marker on, if the markers of earlier forms do not occur. -/
theorem literal?_of_marker {before rest marker : List Char} {a x : Char} {bits : Nat}
    (earlier : List (List Char × Nat)) {later : List (List Char × Nat)}
    (hforms : literalForms = earlier ++ (a :: x :: marker, base) :: later)
    (hnone : ∀ form ∈ earlier, ∃ y ∈ form.1, y ∉ before ++ (a :: x :: marker ++ rest))
    (hx : x ∉ before) (hne : x ≠ a) (hnumber : number? base rest = some n) :
    literal? (before ++ (a :: x :: marker ++ rest)) bits = some (.ofNat n bits) := by
  have hearlier : earlier.findSome? (fun form =>
      (after? form.1 (before ++ (a :: x :: marker ++ rest))).map fun rest =>
        (number? form.2 rest).map (Constant.ofNat · bits)) = none := by
    rw [List.findSome?_eq_none_iff]
    intro form hform
    obtain ⟨y, hy, habsent⟩ := hnone form hform
    rw [after?_eq_none hy habsent, Option.map_none]
  dsimp only [literal?]
  rw [hforms, List.findSome?_append, hearlier, Option.none_or, List.findSome?_cons,
    after?_append hx hne, Option.map_some, hnumber]
  rfl

/-- Literals are read back, where nothing before them starts a literal and nothing after them is a
digit. -/
theorem Spells.literal?_append {c : Constant} {literal before rest : List Char}
    (h : Spells c literal) (hbefore : ∀ x ∈ before, x ∉ ['#', 'x', 'b', '_'])
    (hrest : ∀ x ∈ rest, x ∉ ['#', 'x'] ∧ digit? x = none) :
    literal? (before ++ (literal ++ rest)) c.bits = some (.ofNat c.value c.bits) := by
  have habsent : '#' ∉ before ∧ 'x' ∉ before ∧ 'b' ∉ before ∧ '_' ∉ before := by
    refine ⟨?_, ?_, ?_, ?_⟩ <;> exact fun h => hbefore _ h (by decide)
  have hnew : '#' ∉ rest ∧ 'x' ∉ rest := by
    refine ⟨?_, ?_⟩ <;> exact fun h => (hrest _ h).1 (by decide)
  have hstop : ∀ x ∈ rest.head?, digit? x = none :=
    fun x hx => (hrest x (List.mem_of_mem_head? hx)).2
  cases h with
  | @hexadecimal text h =>
    rw [List.append_assoc]
    exact literal?_of_marker [] literalForms_eq (List.forall_mem_nil _) habsent.2.1 (by decide)
      (h.number?_append (by decide) (by decide) hstop)
  | @binary text h =>
    have htext : 'x' ∉ text := h.not_mem (by decide) (by decide) (by decide)
    rw [List.append_assoc]
    refine literal?_of_marker [(['#', 'x'], 16)] literalForms_eq
      (List.forall_mem_singleton.2 ⟨'x', by decide, ?_⟩) habsent.2.2.1 (by decide)
      (h.number?_append (by decide) (by decide) hstop)
    simp [habsent, htext, hnew]
  | @decimal text width h hwidth =>
    have htext : '#' ∉ text := h.not_mem (by decide) (by decide) (by decide)
    have hbits : '#' ∉ width := hwidth.not_mem (by decide) (by decide) (by decide)
    simp only [List.append_assoc]
    refine literal?_of_marker [(['#', 'x'], 16), (['#', 'b'], 2)] literalForms_eq
      (fun form hform => ⟨'#', ?_, ?_⟩) habsent.2.2.2 (by decide)
      (h.number?_append (by decide) (by decide) (by simp [digit?]))
    · revert form
      decide
    · simp [habsent, htext, hbits, hnew]

section Lines

variable {current kept more before word rest text : List Char} {c : Char}

/-- The start of a line that ends here, the last character first. -/
def endLine (current : List Char) : List Char :=
  match current with
  | '\r' :: line => line
  | line => line

theorem endLine_subset (current : List Char) : endLine current ⊆ current := by
  unfold endLine
  split
  · exact List.subset_cons_self ..
  · exact List.Subset.refl _

theorem exists_endLine_append (more : List Char) (hkept : ∀ line, kept ≠ '\r' :: line) :
    ∃ more', endLine (more ++ kept) = more' ++ kept ∧ more' ⊆ more := by
  unfold endLine
  split
  · next line hline =>
    cases more with
    | nil => exact absurd hline (hkept line)
    | cons c more => exact ⟨more, (List.cons.inj hline).2.symm, List.subset_cons_self c more⟩
  · exact ⟨more, rfl, List.Subset.refl more⟩

def spacedLines (current text : List Char) : List Char :=
    (linesFrom current text).flatMap (' ' :: ·)

theorem spacedLines_nil (hne : current ≠ []) : spacedLines current [] = ' ' :: current.reverse := by
  cases current with
  | nil => exact absurd rfl hne
  | cons c current => simp [spacedLines, linesFrom]

theorem spacedLines_lineFeed :
    spacedLines current ('\n' :: rest) =
      ' ' :: (endLine current).reverse ++ spacedLines [] rest := by
  have hlines :
      linesFrom current ('\n' :: rest) = (endLine current).reverse :: linesFrom [] rest := rfl
  rw [spacedLines, hlines, List.flatMap_cons]
  rfl

theorem spacedLines_cons (hc : c ≠ '\n') :
    spacedLines current (c :: rest) = spacedLines (c :: current) rest := by
  rw [spacedLines, linesFrom]
  · rfl
  · exact fun h => hc h

theorem spacedLines_append (hword : '\n' ∉ word) :
    spacedLines current (word ++ rest) = spacedLines (word.reverse ++ current) rest := by
  induction word generalizing current with
  | nil => rfl
  | cons c word ih =>
    rw [List.cons_append, spacedLines_cons (List.ne_of_not_mem_cons hword).symm,
      ih (List.not_mem_of_not_mem_cons hword), List.reverse_cons, List.append_assoc]
    rfl

theorem spacedLines_subset (current text : List Char) :
    spacedLines current text ⊆ ' ' :: (current ++ text) := by
  induction text generalizing current with
  | nil =>
    cases current with
    | nil => exact List.nil_subset _
    | cons c current =>
      rw [spacedLines_nil (List.cons_ne_nil _ _), List.append_nil]
      exact List.cons_subset_cons _ (List.reverse_subset.2 (List.Subset.refl _))
  | cons c text ih =>
    by_cases hc : c = '\n'
    · rw [hc, spacedLines_lineFeed]
      have hend := endLine_subset current
      have hrest := ih []
      grind
    · rw [spacedLines_cons hc]
      have hrest := ih (c :: current)
      grind

theorem exists_spacedLines_eq (more rest : List Char) (hne : kept ≠ [])
    (hkept : ∀ line, kept ≠ '\r' :: line) :
    ∃ rest', spacedLines (more ++ kept) rest = ' ' :: (kept.reverse ++ rest') ∧
      rest' ⊆ ' ' :: (more ++ rest) := by
  induction rest generalizing more with
  | nil =>
    refine ⟨more.reverse, ?_, by simp⟩
    rw [spacedLines_nil (by simp [hne]), List.reverse_append]
  | cons c rest ih =>
    by_cases hc : c = '\n'
    · obtain ⟨more', hend, hmore⟩ := exists_endLine_append more hkept
      refine ⟨more'.reverse ++ spacedLines [] rest, ?_, ?_⟩
      · rw [hc, spacedLines_lineFeed, hend, List.reverse_append, List.cons_append,
          List.append_assoc]
      · have hrest := spacedLines_subset [] rest
        grind
    · obtain ⟨rest', hrest, hsub⟩ := ih (c :: more)
      exact ⟨rest', (spacedLines_cons hc).trans hrest, by grind⟩

theorem exists_spacedLines_append (current before rest : List Char) (hne : word ≠ [])
    (hbreak : ∀ x ∈ ['\n', '\r'], x ∉ word) :
    ∃ before' rest',
      spacedLines current (before ++ (word ++ rest)) = ' ' :: (before' ++ (word ++ rest')) ∧
      before' ⊆ ' ' :: (current ++ before) ∧ rest' ⊆ ' ' :: rest := by
  induction before generalizing current with
  | nil =>
    have hkept : ∀ line, word.reverse ++ current ≠ '\r' :: line := by
      intro line hline
      rcases List.append_eq_cons_iff.1 hline with ⟨hnil, -⟩ | ⟨word', hword, -⟩
      · exact hne (List.reverse_eq_nil_iff.1 hnil)
      · exact hbreak '\r' (by simp) (List.mem_reverse.1 (hword ▸ List.mem_cons_self))
    obtain ⟨rest', hrest, hsub⟩ := exists_spacedLines_eq [] rest (by simp [hne]) hkept
    refine ⟨current.reverse, rest', ?_, by simp, by simpa using hsub⟩
    rw [List.nil_append, spacedLines_append (hbreak '\n' (by simp))]
    simpa using hrest
  | cons c before ih =>
    by_cases hc : c = '\n'
    · obtain ⟨before', rest', heq, hbefore, hrest⟩ := ih []
      refine ⟨(endLine current).reverse ++ ' ' :: before', rest', ?_, ?_, hrest⟩
      · rw [hc, List.cons_append, spacedLines_lineFeed, heq]
        simp
      · have hend := endLine_subset current
        grind
    · obtain ⟨before', rest', heq, hbefore, hrest⟩ := ih (c :: current)
      exact ⟨before', rest', (spacedLines_cons hc).trans heq, by grind, hrest⟩

end Lines

theorem intercalate_cons {line : List Char} {rest : List (List Char)} :
    [' '].intercalate (line :: rest) = line ++ rest.flatMap (' ' :: ·) := by
  induction rest generalizing line with
  | nil => simp
  | cons next rest ih => simp [List.intercalate_cons_cons, ih]

theorem intercalate_of_spacedLines {text joined : List Char}
    (h : spacedLines [] text = ' ' :: joined) :
    [' '].intercalate (lines text) = joined := by
  unfold spacedLines at h
  unfold lines
  cases hlines : linesFrom [] text with
  | nil =>
    rw [hlines] at h
    cases h
  | cons line rest =>
    rw [hlines, List.flatMap_cons] at h
    rw [intercalate_cons]
    exact (List.cons.inj h).2

namespace Spaced

variable {before after words : List (List Char)} {word text : List Char}

theorem exists_split (before : List (List Char)) (h : Spaced (before ++ word :: after) text) :
    ∃ first rest, text = first ++ (word ++ rest) ∧ Spaced before first ∧ Spaced after rest := by
  induction before generalizing text with
  | nil =>
    obtain _ | ⟨_, hgap, hrest⟩ := h
    exact ⟨_, _, List.append_assoc .., .gap hgap, hrest⟩
  | cons first before ih =>
    obtain _ | ⟨_, hgap, hrest⟩ := h
    obtain ⟨next, rest, rfl, hnext, hrest⟩ := ih hrest
    exact ⟨_, rest, (List.append_assoc ..).symm, .word _ hgap hnext, hrest⟩

theorem subset (h : Spaced words text) : text ⊆ blanks ++ words.flatten := by
  induction h with
  | gap h => simpa using h
  | word gap hgap rest ih => grind

end Spaced

section Answers

variable {c : Constant} {literal : List Char} {answer : String}

theorem Spells.ne_nil (h : Spells c literal) : literal ≠ [] := by
  cases h <;> simp

theorem Spells.not_mem_lineBreak (h : Spells c literal) : ∀ x ∈ ['\n', '\r'], x ∉ literal := by
  intro x hx
  have hother : ∀ x ∈ ['\n', '\r'], x ∉ ['#', 'x', 'b', '(', '_', ' ', 'v', ')'] ∧
      digit? x = none := by
    simp [digit?]
  obtain ⟨hmark, hdigit⟩ := hother x hx
  cases h with
  | hexadecimal h =>
    have := h.not_mem (by decide) (by decide) hdigit
    grind
  | binary h =>
    have := h.not_mem (by decide) (by decide) hdigit
    grind
  | decimal h hwidth =>
    have := h.not_mem (by decide) (by decide) hdigit
    have := hwidth.not_mem (by decide) (by decide) hdigit
    grind

theorem answerText_toUTF8 : answerText answer.toUTF8 = .ok answer := by
  rw [answerText, String.fromUTF8?, dif_pos (String.toUTF8_eq_toByteArray ▸ answer.isValidUTF8)]
  rfl

/-- The value that an answer gives is read. -/
theorem GivesValue.readValue_eq (h : GivesValue literal answer) (hliteral : Spells c literal)
    (hc : c.Valid) :
    readValue answer c.bits = .ok (some c) := by
  obtain ⟨lineBreak, hbreak, number, text, hnumber, hspaced, hanswer⟩ := h
  have hverdict : verdict? answer = some (.sat, lines text) := by
    rw [verdict?, hanswer]
    simp only [List.mem_cons, List.not_mem_nil, or_false] at hbreak
    rcases hbreak with rfl | rfl <;> rfl
  obtain ⟨first, rest, rfl, hfirst, hrest⟩ := hspaced.exists_split [['('], ['('], 'e' :: number]
  obtain ⟨before, after, hlines, hbefore, hafter⟩ :=
    exists_spacedLines_append [] first rest hliteral.ne_nil hliteral.not_mem_lineBreak
  have hbefore : ∀ x ∈ before, x ∈ ' ' :: '(' :: 'e' :: blanks ∨ x.isDigit = true := by
    intro x hx
    have := hfirst.subset
    grind
  have hafter : ∀ x ∈ after, x ∈ ' ' :: ')' :: blanks := by
    intro x hx
    have := hrest.subset
    grind
  have hread : literal? (before ++ (literal ++ after)) c.bits = some (.ofNat c.value c.bits) := by
    refine hliteral.literal?_append (fun x hx hmarker => ?_) fun x hx => ?_
    · have hother : ∀ x ∈ ['#', 'x', 'b', '_'],
          ¬(x ∈ ' ' :: '(' :: 'e' :: blanks ∨ x.isDigit = true) := by
        simp [blanks]
      exact hother x hmarker (hbefore x hx)
    · have hother : ∀ x ∈ ' ' :: ')' :: blanks, x ∉ ['#', 'x'] ∧ digit? x = none := by
        simp [blanks, digit?]
      exact hother x (hafter x hx)
  calc readValue answer c.bits
    _ = .ok (valueIn (lines (first ++ (literal ++ rest))) c.bits) := by rw [readValue, hverdict]
    _ = .ok (literal? (before ++ (literal ++ after)) c.bits) := by
      rw [valueIn, intercalate_of_spacedLines hlines]
    _ = .ok (some c) := by rw [hread, Constant.ofNat_eq_self hc]

end Answers

end SmtLib

namespace Oracle

open SmtLib

variable {σ : Type} {g : Graph} {set : ConstraintSet} {e : NodeId} {s t : σ} {c : Constant}
  {literal : List Char} {answer : String}

/-- The oracle reads the value that a solver gives. -/
theorem ofSolver_evaluate_of_givesValue {run : String → EStateM Error σ ByteArray}
    (hrun : run (script (valueQuery g set e)) s = .ok answer.toUTF8 t)
    (hanswer : GivesValue literal answer) (hliteral : Spells c literal)
    (hc : c.Valid) (hwidth : g.width e = c.bits) :
    (Oracle.ofSolver run).evaluate g set e s = .ok (some c) t := by
  have hread := hanswer.readValue_eq hliteral hc
  simp only [ofSolver]
  rw [bind_apply_of_ok hrun, answerText_toUTF8, hwidth]
  exact ofExcept_apply_eq_ok_iff.2 ⟨hread, rfl⟩

/-- The value of a byte of a packet is on a line of its own, with a zero in front and letters of
both cases. -/
theorem ofSolver_evaluate_of_wrapped_answer :
    let g : Graph :=
      { nodes := #[⟨.constant ⟨0, 32⟩, 32⟩, ⟨.read 0 0, 8⟩], roots := #[.symbolic "packet" 64] }
    let answer := "sat\r\n((e1\r\n #x0fA))\n"
    let run : String → EStateM Error Unit ByteArray := fun _ => pure answer.toUTF8
    run (script (valueQuery g {} 1)) () = .ok answer.toUTF8 () ∧ GivesValue "#x0fA".toList answer ∧
      Spells ⟨250, 8⟩ "#x0fA".toList ∧ Constant.Valid ⟨250, 8⟩ ∧ g.width 1 = 8 ∧
      (Oracle.ofSolver run).evaluate g {} 1 () = .ok (some ⟨250, 8⟩) () := by
  intro g answer run
  have hanswer : GivesValue "#x0fA".toList answer := by
    refine ⟨"\r\n".toList, by simp, ['1'], "((e1\r\n #x0fA))\n".toList, by simp, ?_,
      by decide +kernel⟩
    exact .word [] (by simp) <| .word [] (by simp) <| .word [] (by simp) <|
      .word "\r\n ".toList (by decide) <| .word [] (by simp) <| .word [] (by simp) <|
        .gap (by decide)
  have hliteral : Spells ⟨250, 8⟩ "#x0fA".toList :=
    .hexadecimal ⟨1, .cons (.inl rfl) (.cons (.inl rfl) (.cons (.inr rfl) .nil))⟩
  exact ⟨rfl, hanswer, hliteral, by decide, rfl,
    ofSolver_evaluate_of_givesValue rfl hanswer hliteral (by decide) rfl⟩

end Oracle

end BitvectorCode
