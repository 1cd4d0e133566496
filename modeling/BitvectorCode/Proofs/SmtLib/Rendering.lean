import BitvectorCode.Proofs.Constant.Digits
import BitvectorCode.Proofs.SmtLib.SExpr

/-!
# Rendered commands

A rendered command is the text of an S-expression, so a script is read back as the S-expressions of
its commands, whatever the names of the arrays are, as long as bars can quote them.
-/

namespace BitvectorCode.SmtLib

def bitVecSort (bits : Nat) : SExpr := .list [.word "_", .word "BitVec", .word (toString bits)]

def byteArraySort : SExpr := .list [.word "Array", bitVecSort indexBits, bitVecSort 8]

namespace Term

def toSExpr : Term → SExpr
  | definition e => .word (nodeName e)
  | literal value bits => .list [.word "_", .word ("bv" ++ decimal value), .word (toString bits)]
  | bit b => .word (if b then "#b1" else "#b0")
  | select array index => .list [.word "select", .quoted array, index.toSExpr]
  | zeroExtend extra t =>
    .list [.list [.word "_", .word "zero_extend", .word (toString extra)], t.toSExpr]
  | signExtend extra t =>
    .list [.list [.word "_", .word "sign_extend", .word (toString extra)], t.toSExpr]
  | extract high low t =>
    .list [.list [.word "_", .word "extract", .word (toString high), .word (toString low)],
      t.toSExpr]
  | concat high low => .list [.word "concat", high.toSExpr, low.toSExpr]
  | not t => .list [.word "bvnot", t.toSExpr]
  | binary op l r => .list [.word (operatorName op), l.toSExpr, r.toSExpr]
  | ite op l r ifTrue ifFalse =>
    .list [.word "ite", .list [.word (relationName op), l.toSExpr, r.toSExpr], ifTrue.toSExpr,
      ifFalse.toSExpr]

def arrays : Term → List String
  | definition _ | literal .. | bit _ => []
  | select array index => array :: index.arrays
  | zeroExtend _ t | signExtend _ t | extract _ _ t | not t => t.arrays
  | concat l r | binary _ l r => l.arrays ++ r.arrays
  | ite _ l r ifTrue ifFalse => l.arrays ++ r.arrays ++ ifTrue.arrays ++ ifFalse.arrays

end Term

namespace Command

def toSExpr : Command → SExpr
  | produceModels => .list [.word "set-option", .word ":produce-models", .word "true"]
  | setLogic => .list [.word "set-logic", .word "QF_ABV"]
  | declareArray name => .list [.word "declare-fun", .quoted name, .list [], byteArraySort]
  | assert op l r => .list [.word "assert", .list [.word (relationName op), l.toSExpr, r.toSExpr]]
  | define e width body =>
    .list [.word "define-fun", .word (nodeName e), .list [], bitVecSort width, body.toSExpr]
  | checkSat => .list [.word "check-sat"]
  | getValue e => .list [.word "get-value", .list [.word (nodeName e)]]

def arrays : Command → List String
  | declareArray name => [name]
  | assert _ l r => l.arrays ++ r.arrays
  | define _ _ body => body.arrays
  | produceModels | setLogic | checkSat | getValue _ => []

end Command

theorem isWordChar_of_isDigit {c : Char} (h : c.isDigit = true) : isWordChar c = true := by
  have other : ∀ d : Char, d.isDigit = false → c ≠ d := by
    rintro d hd rfl
    exact Bool.false_ne_true (hd.symm.trans h)
  have hblank : c.isWhitespace = false := by
    simp [Char.isWhitespace, other ' ' rfl, other '\t' rfl, other '\r' rfl, other '\n' rfl]
  simp [isWordChar, hblank, other '(' rfl, other ')' rfl, other '|' rfl,
    other '"' rfl, other ';' rfl]

theorem isWord_append_toString {start : String} (h : start.toList.all isWordChar = true) (n : Nat) :
    IsWord (start ++ toString n) := by
  have hdigits : (toString n).toList = Nat.toDigits 10 n := String.toList_ofList
  constructor
  · rw [String.toList_append, hdigits]
    simp [Nat.toDigits_ne_nil]
  · intro c hc
    rw [String.toList_append, hdigits] at hc
    rcases List.mem_append.1 hc with hc | hc
    · exact List.all_eq_true.1 h c hc
    · exact isWordChar_of_isDigit (Nat.isDigit_of_mem_toDigits (by decide) (by decide) hc)

theorem isWord_toString (n : Nat) : IsWord (toString n) := by
  simpa using isWord_append_toString (by rfl : "".toList.all isWordChar = true) n

theorem isWord_nodeName (e : NodeId) : IsWord (nodeName e) :=
  isWord_append_toString (by decide : "e".toList.all isWordChar = true) e

theorem isWord_operatorName (op : BinaryOp) : IsWord (operatorName op) := by
  cases op <;> decide +kernel

theorem isWord_relationName (op : CompareOp) : IsWord (relationName op) := by
  cases op <;> decide +kernel

open SExpr

instance (text : String) : Decidable (word text).Printable :=
    inferInstanceAs (Decidable (IsWord text))

theorem print_bitVecSort (bits : Nat) : (bitVecSort bits).print = s!"(_ BitVec {bits})" := by
  apply String.toList_inj.1
  simp [bitVecSort, print, printAll, group, String.intercalate_cons_cons, toString]

theorem print_byteArraySort :
    byteArraySort.print = s!"(Array (_ BitVec {indexBits}) (_ BitVec 8))" := by
  decide +kernel

theorem print_list_nil : (list []).print = "()" := by decide +kernel

theorem printable_bitVecSort (bits : Nat) : (bitVecSort bits).Printable :=
  ⟨by decide, by decide, isWord_toString bits, trivial⟩

namespace Term

theorem print_toSExpr (t : Term) : t.toSExpr.print = t.render := by
  induction t with
  | definition e | literal value bits | bit b => rfl
  | zeroExtend extra t ih | signExtend extra t ih =>
    apply String.toList_inj.1
    simp [toSExpr, render, print, printAll, group, String.intercalate_cons_cons, toString, ih]
  | extract high low t ih =>
    apply String.toList_inj.1
    simp [toSExpr, render, print, printAll, group, String.intercalate_cons_cons, toString, ih]
  | select array t ih | not t ih => simp [toSExpr, render, print, printAll, ih]
  | concat l r ihl ihr | binary op l r ihl ihr => simp [toSExpr, render, print, printAll, ihl, ihr]
  | ite op l r t f ihl ihr iht ihf => simp [toSExpr, render, print, printAll, ihl, ihr, iht, ihf]

theorem printable_toSExpr {t : Term} (h : ∀ name ∈ t.arrays, Quotable name) :
    t.toSExpr.Printable := by
  induction t with
  | definition e => exact isWord_nodeName e
  | literal value bits =>
    have hvalue : IsWord ("bv" ++ decimal value) := by
      rw [decimal_eq_toString]
      exact isWord_append_toString (by decide) value
    exact ⟨by decide, hvalue, isWord_toString bits, trivial⟩
  | bit b =>
    cases b with
    | true => exact (by decide : (word "#b1").Printable)
    | false => exact (by decide : (word "#b0").Printable)
  | select array t ih =>
    obtain ⟨hname, ht⟩ := List.forall_mem_cons.1 h
    exact ⟨by decide, hname, ih ht, trivial⟩
  | zeroExtend extra t ih | signExtend extra t ih =>
    exact ⟨⟨by decide, by decide, isWord_toString extra, trivial⟩, ih h, trivial⟩
  | extract high low t ih =>
    exact ⟨⟨by decide, by decide, isWord_toString high, isWord_toString low, trivial⟩,
      ih h, trivial⟩
  | not t ih => exact ⟨by decide, ih h, trivial⟩
  | concat l r ihl ihr =>
    obtain ⟨hl, hr⟩ := List.forall_mem_append.1 h
    exact ⟨by decide, ihl hl, ihr hr, trivial⟩
  | binary op l r ihl ihr =>
    obtain ⟨hl, hr⟩ := List.forall_mem_append.1 h
    exact ⟨isWord_operatorName op, ihl hl, ihr hr, trivial⟩
  | ite op l r t f ihl ihr iht ihf =>
    obtain ⟨h, hf⟩ := List.forall_mem_append.1 h
    obtain ⟨h, ht⟩ := List.forall_mem_append.1 h
    obtain ⟨hl, hr⟩ := List.forall_mem_append.1 h
    exact ⟨by decide, ⟨isWord_relationName op, ihl hl, ihr hr, trivial⟩, iht ht, ihf hf, trivial⟩

end Term

namespace Command

theorem print_toSExpr (c : Command) : c.toSExpr.print = c.render := by
  cases c with
  | produceModels | setLogic | checkSat => decide +kernel
  | declareArray name =>
    rw [toSExpr, print, printAll, printAll, printAll, printAll, print_list_nil, print_byteArraySort]
    rfl
  | assert op l r => simp [toSExpr, render, print, printAll, Term.print_toSExpr]
  | define e width body =>
    rw [toSExpr, print, printAll, printAll, printAll, printAll, printAll, print_list_nil,
      print_bitVecSort, Term.print_toSExpr]
    rfl
  | getValue e => rfl

theorem printable_toSExpr {c : Command} (h : ∀ name ∈ c.arrays, Quotable name) :
    c.toSExpr.Printable := by
  cases c with
  | produceModels => exact ⟨by decide, by decide, by decide, trivial⟩
  | setLogic => exact ⟨by decide, by decide, trivial⟩
  | declareArray name =>
    exact ⟨by decide, h name (by simp [arrays]), trivial,
      ⟨by decide, printable_bitVecSort _, printable_bitVecSort _, trivial⟩, trivial⟩
  | assert op l r =>
    obtain ⟨hl, hr⟩ := List.forall_mem_append.1 h
    exact ⟨by decide, ⟨isWord_relationName op, Term.printable_toSExpr hl,
      Term.printable_toSExpr hr, trivial⟩, trivial⟩
  | define e width body =>
    exact ⟨by decide, isWord_nodeName e, trivial, printable_bitVecSort width,
      Term.printable_toSExpr h, trivial⟩
  | checkSat => exact ⟨by decide, trivial⟩
  | getValue e => exact ⟨by decide, ⟨isWord_nodeName e, trivial⟩, trivial⟩

end Command

/-- A script is read back as its commands. -/
theorem read?_script {commands : List Command}
    (h : ∀ c ∈ commands, ∀ name ∈ c.arrays, Quotable name) :
    read? (script commands) = some (commands.map Command.toSExpr) := by
  have hprintable : PrintableAll (commands.map Command.toSExpr) := by
    induction commands with
    | nil => trivial
    | cons c commands ih =>
      obtain ⟨hc, hcs⟩ := List.forall_mem_cons.1 h
      exact ⟨Command.printable_toSExpr hc, ih hcs⟩
  have htext : script commands =
      String.join ((commands.map Command.toSExpr).map fun e => e.print ++ "\n") := by
    rw [script, List.map_map]
    simp only [Function.comp_def, Command.print_toSExpr]
  rw [htext, read?_lines _ hprintable]

end BitvectorCode.SmtLib
