import BitvectorCode.SmtLib.Command
import Mathlib.Tactic.SplitIfs

/-!
# S-expressions

Scripts are texts of S-expressions: words, symbols quoted by bars, and lists in parentheses. A text
is cut into tokens from left to right, and the tokens are put together with a stack of the lists
that are open. Printed S-expressions are read back. Comments and string literals are not read.
-/

namespace BitvectorCode.SmtLib

inductive Token where
  | opening
  | closing
  | word (text : String)
  | quoted (name : String)
deriving DecidableEq

/-- What the reader is inside of, with its characters so far, the last one first. -/
inductive Inside where
  | nothing
  | word (start : List Char)
  | quoted (start : List Char)

def isWordChar (c : Char) : Bool := !c.isWhitespace && c ∉ ['(', ')', '|', '"', ';']

/-- The tokens that end where a word cannot go on. -/
def Inside.ended : Inside → List Token
  | word start => [.word (String.ofList start.reverse)]
  | _ => []

/-- The tokens that one more character completes, and what the reader is inside of after it. A
quoted symbol has no backslash. -/
def Inside.next (inside : Inside) (c : Char) : Option (List Token × Inside) :=
  match inside with
  | quoted start =>
    if c = '|' then some ([.quoted (String.ofList start.reverse)], nothing)
    else if c = '\\' then none
    else some ([], quoted (c :: start))
  | _ =>
    if isWordChar c then
      match inside with
      | word start => some ([], word (c :: start))
      | _ => some ([], word [c])
    else if c = '(' then some (inside.ended ++ [.opening], nothing)
    else if c = ')' then some (inside.ended ++ [.closing], nothing)
    else if c = '|' then some (inside.ended, quoted [])
    else if c.isWhitespace then some (inside.ended, nothing)
    else none

/-- The tokens of the rest of a text, which must not end inside a quoted symbol. -/
def tokensFrom (inside : Inside) : List Char → Option (List Token)
  | [] =>
    match inside with
    | .quoted _ => none
    | _ => some inside.ended
  | c :: rest => do
    let (tokens, inside) ← inside.next c
    return tokens ++ (← tokensFrom inside rest)

/-- The text is read as one word. -/
def IsWord (text : String) : Prop := text.toList ≠ [] ∧ ∀ c ∈ text.toList, isWordChar c = true

instance (text : String) : Decidable (IsWord text) :=
  @instDecidableAnd _ _ _ (List.decidableBAll (isWordChar · = true) text.toList)

def Quotable (name : String) : Prop := ∀ c ∈ name.toList, c ≠ '|' ∧ c ≠ '\\'

instance (name : String) : Decidable (Quotable name) :=
  List.decidableBAll (fun c => c ≠ '|' ∧ c ≠ '\\') name.toList

inductive SExpr where
  | word (text : String)
  | quoted (name : String)
  | list (items : List SExpr)

/-- Reads the rest of the tokens, where `items` were read at this level and `above` at the levels
around it, the last one first. -/
def parseFrom (items : List SExpr) (above : List (List SExpr)) : List Token → Option (List SExpr)
  | [] => if above.isEmpty then some items.reverse else none
  | .word text :: rest => parseFrom (.word text :: items) above rest
  | .quoted name :: rest => parseFrom (.quoted name :: items) above rest
  | .opening :: rest => parseFrom [] (items :: above) rest
  | .closing :: rest =>
    match above with
    | outer :: above => parseFrom (.list items.reverse :: outer) above rest
    | [] => none

def read? (text : String) : Option (List SExpr) :=
  (tokensFrom .nothing text.toList).bind (parseFrom [] [])

namespace SExpr

mutual

def print : SExpr → String
  | word text => text
  | quoted name => arrayName name
  | list items => group (printAll items)

def printAll : List SExpr → List String
  | [] => []
  | e :: es => e.print :: printAll es

end

mutual

def tokens : SExpr → List Token
  | word text => [.word text]
  | quoted name => [.quoted name]
  | list items => .opening :: (tokensAll items ++ [.closing])

def tokensAll : List SExpr → List Token
  | [] => []
  | e :: es => e.tokens ++ tokensAll es

end

mutual

/-- Words are read as words, and bars can quote the quoted symbols. -/
def Printable : SExpr → Prop
  | word text => IsWord text
  | quoted name => Quotable name
  | list items => PrintableAll items

def PrintableAll : List SExpr → Prop
  | [] => True
  | e :: es => e.Printable ∧ PrintableAll es

end

end SExpr

/-- The text does not go on with a character of a word. -/
def Delimited (rest : List Char) : Prop := ∀ c ∈ rest.head?, isWordChar c = false

theorem delimited_cons {c : Char} {rest : List Char} (h : isWordChar c = false) :
    Delimited (c :: rest) := by
  rintro _ ⟨⟩
  exact h

theorem tokensFrom_cons {inside inside' : Inside} {c : Char} {tokens : List Token}
    {rest : List Char} (h : inside.next c = some (tokens, inside')) :
    tokensFrom inside (c :: rest) = (tokensFrom inside' rest).map (tokens ++ ·) := by
  rw [tokensFrom, h]
  cases hrest : tokensFrom inside' rest <;> simp [hrest]

theorem tokensFrom_word {text start rest : List Char} (h : ∀ c ∈ text, isWordChar c = true) :
    tokensFrom (.word start) (text ++ rest) = tokensFrom (.word (text.reverse ++ start)) rest := by
  induction text generalizing start with
  | nil => rfl
  | cons c text ih =>
    have hnext : (Inside.word start).next c = some ([], .word (c :: start)) := by
      simp [Inside.next, h c List.mem_cons_self]
    rw [List.cons_append, tokensFrom_cons hnext, ih fun d hd => h d (List.mem_cons_of_mem c hd)]
    simp

theorem tokensFrom_quoted {name start rest : List Char} (h : ∀ c ∈ name, c ≠ '|' ∧ c ≠ '\\') :
    tokensFrom (.quoted start) (name ++ '|' :: rest) =
      (tokensFrom .nothing rest).map (.quoted (String.ofList (start.reverse ++ name)) :: ·) := by
  induction name generalizing start with
  | nil =>
    have hnext : (Inside.quoted start).next '|' =
        some ([.quoted (String.ofList start.reverse)], .nothing) := rfl
    rw [List.nil_append, tokensFrom_cons hnext, List.append_nil]
    rfl
  | cons c name ih =>
    obtain ⟨hbar, hbackslash⟩ := h c List.mem_cons_self
    have hnext : (Inside.quoted start).next c = some ([], .quoted (c :: start)) := by
      simp [Inside.next, hbar, hbackslash]
    rw [List.cons_append, tokensFrom_cons hnext, ih fun d hd => h d (List.mem_cons_of_mem c hd),
      List.reverse_cons, List.append_assoc, Option.map_map]
    rfl

theorem tokensFrom_ended {start rest : List Char} (h : Delimited rest) :
    tokensFrom (.word start) rest =
      (tokensFrom .nothing rest).map (.word (String.ofList start.reverse) :: ·) := by
  cases rest with
  | nil => rfl
  | cons c rest =>
    have hc : isWordChar c = false := h c rfl
    have hnext : (Inside.word start).next c = (Inside.nothing.next c).map
        fun (tokens, inside) => (.word (String.ofList start.reverse) :: tokens, inside) := by
      simp only [Inside.next, hc, Bool.false_eq_true, if_false, Inside.ended]
      split_ifs <;> rfl
    cases hnothing : Inside.nothing.next c with
    | none => simp [tokensFrom, hnext, hnothing]
    | some found =>
      obtain ⟨tokens, inside⟩ := found
      rw [hnothing] at hnext
      rw [tokensFrom_cons hnext, tokensFrom_cons hnothing, Option.map_map]
      rfl

theorem tokensFrom_append_word {text : String} (hword : IsWord text) {rest : List Char}
    (hrest : Delimited rest) :
    tokensFrom .nothing (text.toList ++ rest) =
      (tokensFrom .nothing rest).map (.word text :: ·) := by
  obtain ⟨hne, h⟩ := hword
  obtain ⟨c, cs, hcs⟩ := List.exists_cons_of_ne_nil hne
  have htext : String.ofList (c :: cs) = text := by rw [← hcs, String.ofList_toList]
  rw [hcs] at h ⊢
  have hnext : Inside.nothing.next c = some ([], .word [c]) := by
    simp [Inside.next, h c List.mem_cons_self]
  rw [List.cons_append, tokensFrom_cons hnext,
    tokensFrom_word fun d hd => h d (List.mem_cons_of_mem c hd), tokensFrom_ended hrest,
    List.reverse_append, List.reverse_reverse, Option.map_map]
  exact congrArg (fun text => Option.map (Token.word text :: ·) _) htext

namespace SExpr

mutual

/-- A printed S-expression has its tokens, wherever it stands in a text that does not go on with its
last word. -/
theorem tokensFrom_print (e : SExpr) (he : e.Printable) {rest : List Char}
    (hrest : Delimited rest) :
    tokensFrom .nothing (e.print.toList ++ rest) =
      (tokensFrom .nothing rest).map (e.tokens ++ ·) := by
  match e with
  | word text =>
    rw [print, tokensFrom_append_word he hrest]
    rfl
  | quoted name =>
    have hopen : Inside.nothing.next '|' = some ([], .quoted []) := rfl
    have htext : (arrayName name).toList ++ rest = '|' :: (name.toList ++ '|' :: rest) := by
      simp [arrayName]
    rw [print, htext, tokensFrom_cons hopen, tokensFrom_quoted he, List.reverse_nil,
      List.nil_append, String.ofList_toList, Option.map_map]
    rfl
  | list items =>
    have hopen : Inside.nothing.next '(' = some ([.opening], .nothing) := rfl
    have hclose : Inside.nothing.next ')' = some ([.closing], .nothing) := rfl
    have htext : (group (printAll items)).toList ++ rest =
        '(' :: ((" ".intercalate (printAll items)).toList ++ ')' :: rest) := by
      simp [group]
    rw [print, htext, tokensFrom_cons hopen, tokensFrom_printAll items he (delimited_cons rfl),
      tokensFrom_cons hclose, Option.map_map, Option.map_map]
    simp [tokens, Function.comp_def]

theorem tokensFrom_printAll (es : List SExpr) (hes : PrintableAll es) {rest : List Char}
    (hrest : Delimited rest) :
    tokensFrom .nothing ((" ".intercalate (printAll es)).toList ++ rest) =
      (tokensFrom .nothing rest).map (tokensAll es ++ ·) := by
  match es with
  | [] => simp [printAll, tokensAll]
  | [e] =>
    rw [printAll, printAll, String.intercalate_singleton, tokensFrom_print e hes.1 hrest, tokensAll,
      tokensAll, List.append_nil]
  | e :: e' :: es =>
    have hblank : Inside.nothing.next ' ' = some ([], .nothing) := rfl
    have htext : (" ".intercalate (printAll (e :: e' :: es))).toList ++ rest =
        e.print.toList ++ ' ' :: ((" ".intercalate (printAll (e' :: es))).toList ++ rest) := by
      simp [printAll, String.intercalate_cons_cons]
    rw [htext, tokensFrom_print e hes.1 (delimited_cons rfl), tokensFrom_cons hblank,
      tokensFrom_printAll (e' :: es) hes.2 hrest, Option.map_map, Option.map_map]
    simp [tokensAll, Function.comp_def]

end

mutual

theorem parseFrom_tokens (e : SExpr) (items : List SExpr) (above : List (List SExpr))
    (rest : List Token) :
    parseFrom items above (e.tokens ++ rest) = parseFrom (e :: items) above rest := by
  match e with
  | word text | quoted name => rfl
  | list inner =>
    rw [tokens, List.cons_append, List.append_assoc, parseFrom, parseFrom_tokensAll inner,
      List.singleton_append, parseFrom, List.append_nil, List.reverse_reverse]

theorem parseFrom_tokensAll (es : List SExpr) (items : List SExpr) (above : List (List SExpr))
    (rest : List Token) :
    parseFrom items above (tokensAll es ++ rest) = parseFrom (es.reverse ++ items) above rest := by
  match es with
  | [] => rfl
  | e :: es =>
    rw [tokensAll, List.append_assoc, parseFrom_tokens e, parseFrom_tokensAll es, List.reverse_cons,
      List.append_assoc]
    rfl

end

/-- A text with one printed S-expression on each line is read as these S-expressions. -/
theorem read?_lines (es : List SExpr) (hes : PrintableAll es) :
    read? (String.join (es.map fun e => e.print ++ "\n")) = some es := by
  have htokens : tokensFrom .nothing (String.join (es.map fun e => e.print ++ "\n")).toList =
      some (tokensAll es) := by
    induction es with
    | nil => rfl
    | cons e es ih =>
      have hblank : Inside.nothing.next '\n' = some ([], .nothing) := rfl
      have htext : (String.join ((e :: es).map fun e => e.print ++ "\n")).toList =
          e.print.toList ++ '\n' :: (String.join (es.map fun e => e.print ++ "\n")).toList := by
        simp [String.join_cons]
      rw [htext, tokensFrom_print e hes.1 (delimited_cons rfl), tokensFrom_cons hblank, ih hes.2]
      rfl
  have hparse := parseFrom_tokensAll es [] [] []
  rw [List.append_nil, List.append_nil] at hparse
  rw [read?, htokens, Option.bind_some, hparse]
  simp [parseFrom]

end SExpr

end BitvectorCode.SmtLib
