import BitvectorCode.Proofs.SmtLib.Rendering

/-!
# The meaning of scripts

What the standard says a script means, for the part of the logic of bitvectors and arrays that
queries need: arrays of bytes with 32-bit indices, and the functions and relations on bitvectors.
Every symbol is declared or defined once, and none of them is a symbol that the logic has already,
also where bars are put around it. Hexadecimal literals are not read.
-/

namespace BitvectorCode.SmtLib

inductive Value where
  | truth (b : Bool)
  | bits {w : Nat} (v : BitVec w)
  | array (a : BitVec 32 → BitVec 8)

/-- What the arrays of a script stand for, by name. -/
abbrev Arrays := String → BitVec 32 → BitVec 8

/-- The values that symbols stand for. -/
abbrev Scope := String → Option Value

/-- The symbols of the logic. The functions that take numerals, such as that of extracts, have no
symbol of their own. -/
def theorySymbols : List String :=
  ["true", "false", "not", "=>", "and", "or", "xor", "=", "distinct", "ite", "select", "store",
    "concat", "bvnot", "bvneg", "bvand", "bvor", "bvnand", "bvnor", "bvxor", "bvxnor", "bvadd",
    "bvsub", "bvmul", "bvudiv", "bvurem", "bvsdiv", "bvsrem", "bvsmod", "bvshl", "bvlshr", "bvashr",
    "bvcomp", "bvult", "bvule", "bvugt", "bvuge", "bvslt", "bvsle", "bvsgt", "bvsge", "bvnego",
    "bvuaddo", "bvsaddo", "bvumulo", "bvsmulo", "bvusubo", "bvssubo", "bvsdivo", "ubv_to_int",
    "sbv_to_int"]

def Value.toBits? (w : Nat) : Value → Option (BitVec w)
  | @bits n v => if h : n = w then some (v.cast h) else none
  | _ => none

/-- A numeral is a number in decimal digits, without leading zeros. -/
def numeral? (text : String) : Option Nat := text.toNat?.filter fun n => toString n = text

def function? (name : String) : Option ((w : Nat) → BitVec w → BitVec w → BitVec w) :=
  match name with
  | "bvadd" => some fun _ l r => l + r
  | "bvsub" => some fun _ l r => l - r
  | "bvmul" => some fun _ l r => l * r
  | "bvudiv" => some fun _ l r => l.smtUDiv r
  | "bvsdiv" => some fun _ l r => l.smtSDiv r
  | "bvurem" => some fun _ l r => l % r
  | "bvsrem" => some fun _ l r => l.srem r
  | "bvand" => some fun _ l r => l &&& r
  | "bvor" => some fun _ l r => l ||| r
  | "bvxor" => some fun _ l r => l ^^^ r
  | "bvshl" => some fun _ l r => l <<< r
  | "bvlshr" => some fun _ l r => l >>> r
  | "bvashr" => some fun _ l r => l.sshiftRight' r
  | _ => none

def relation? (name : String) : Option ((w : Nat) → BitVec w → BitVec w → Bool) :=
  match name with
  | "=" => some fun _ l r => l == r
  | "distinct" => some fun _ l r => l != r
  | "bvult" => some fun _ l r => l.ult r
  | "bvule" => some fun _ l r => l.ule r
  | "bvugt" => some fun _ l r => r.ult l
  | "bvuge" => some fun _ l r => r.ule l
  | "bvslt" => some fun _ l r => l.slt r
  | "bvsle" => some fun _ l r => l.sle r
  | "bvsgt" => some fun _ l r => r.slt l
  | "bvsge" => some fun _ l r => r.sle l
  | _ => none

namespace SExpr

/-- The symbol that is written. The bars around a quoted symbol are not part of it, and a word that
starts with a digit, a colon or a number sign is none. -/
def symbol? : SExpr → Option String
  | word text =>
    match text.toList with
    | [] => none
    | c :: _ => if c.isDigit || c == ':' || c == '#' then none else some text
  | quoted name => some name
  | list _ => none

/-- The value of `#b` and binary digits. -/
def binary? (text : String) : Option Value :=
  match text.toList with
  | '#' :: 'b' :: digits =>
    if digits.isEmpty || digits.any fun c => c != '0' && c != '1' then none
    else some
      (.bits (.ofNat digits.length (digits.foldl (fun n c => 2 * n + if c = '1' then 1 else 0) 0)))
  | _ => none

/-- The value of `(_ bvX n)`, the number `X` in `n` bits. -/
def bitVecLiteral? : List SExpr → Option Value
  | [word text, word width] =>
    match text.toList with
    | 'b' :: 'v' :: digits => do
      let n ← numeral? (String.ofList digits)
      let w ← numeral? width
      if 0 < w ∧ n < 2 ^ w then some (.bits (.ofNat w n)) else none
    | _ => none
  | _ => none

def applied? (head : SExpr) (args : List Value) : Option Value :=
  match head, args with
  | word "select", [.array a, i] => (i.toBits? 32).map fun i => .bits (a i)
  | word "concat", [.bits high, .bits low] => some (.bits (high ++ low))
  | word "bvnot", [.bits v] => some (.bits (~~~v))
  | word "ite", [.truth c, @Value.bits w ifTrue, ifFalse] =>
    (ifFalse.toBits? w).map fun ifFalse => .bits (if c then ifTrue else ifFalse)
  | word name, [@Value.bits w l, r] => do
    let r ← r.toBits? w
    match function? name, relation? name with
    | some f, _ => some (.bits (f w l r))
    | none, some p => some (.truth (p w l r))
    | none, none => none
  | list [word "_", word "zero_extend", word extra], [@Value.bits w v] => do
    return .bits (v.zeroExtend (w + (← numeral? extra)))
  | list [word "_", word "sign_extend", word extra], [@Value.bits w v] => do
    return .bits (v.signExtend (w + (← numeral? extra)))
  | list [word "_", word "extract", word high, word low], [@Value.bits w v] => do
    let high ← numeral? high
    let low ← numeral? low
    if low ≤ high ∧ high < w then some (.bits (v.extractLsb high low)) else none
  | _, _ => none

mutual

def value (scope : Scope) : SExpr → Option Value
  | list (word "_" :: items) => bitVecLiteral? items
  | list (head :: args) => (values scope args).bind (applied? head)
  | list [] => none
  | word text => binary? text <|> (word text).symbol?.bind scope
  | quoted name => scope name

def values (scope : Scope) : List SExpr → Option (List Value)
  | [] => some []
  | e :: es => do
    let v ← e.value scope
    return v :: (← values scope es)

end

def bitVecWidth? : SExpr → Option Nat
  | list [word "_", word "BitVec", word width] => (numeral? width).filter (0 < ·)
  | _ => none

def isSortOf (sort : SExpr) : Value → Bool
  | .truth _ =>
    match sort with
    | word "Bool" => true
    | _ => false
  | @Value.bits w _ => sort.bitVecWidth? == some w
  | .array _ =>
    match sort with
    | list [word "Array", index, element] =>
      index.bitVecWidth? == some 32 && element.bitVecWidth? == some 8
    | _ => false

end SExpr

/-- The symbols of the commands so far, and whether everything that they assert holds. -/
structure State where
  scope : Scope := fun _ => none
  holds : Bool := true

namespace State

/-- Adds a symbol, which must be new, to the logic too. -/
def add (s : State) (name : String) (v : Value) : Option State :=
  if name ∈ theorySymbols ∨ (s.scope name).isSome then none
  else some { s with scope := fun other => if other = name then some v else s.scope other }

open SExpr

/-- Runs a command. Asking for satisfiability or for values changes nothing. -/
def run (arrays : Arrays) (s : State) : SExpr → Option State
  | list [word "set-option", word _, word _] | list [word "set-logic", word "QF_ABV"]
  | list [word "check-sat"] => some s
  | list [word "declare-fun", symbol, list [], sort] => do
    let name ← symbol.symbol?
    if sort.isSortOf (.array (arrays name)) then s.add name (.array (arrays name)) else none
  | list [word "define-fun", symbol, list [], sort, body] => do
    let name ← symbol.symbol?
    let v ← body.value s.scope
    if sort.isSortOf v then s.add name v else none
  | list [word "assert", t] =>
    match t.value s.scope with
    | some (.truth b) => some { s with holds := s.holds && b }
    | _ => none
  | list [word "get-value", list terms] => (values s.scope terms).map fun _ => s
  | _ => none

end State

def run? (arrays : Arrays) (text : String) : Option State := do
  (← read? text).foldlM (State.run arrays) {}

/-- The script is understood, and for some arrays everything that it asserts holds. -/
def Satisfiable (text : String) : Prop := ∃ arrays s, run? arrays text = some s ∧ s.holds = true

end BitvectorCode.SmtLib
