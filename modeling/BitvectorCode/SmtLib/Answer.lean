import BitvectorCode.Constant.Basic

/-!
# Solver answers

A solver answers a satisfiability question with one word on the first line, and a question for a
value with a literal somewhere in the lines that follow: `#x` and hexadecimal digits, `#b` and
binary digits, or `(_ bv` and decimal digits.
-/

namespace BitvectorCode.SmtLib

/-- The characters that Unicode calls white space. -/
def isBlank (c : Char) : Bool :=
  let n := c.toNat
  (9 ≤ n && n ≤ 13) || n == 0x20 || n == 0x85 || n == 0xA0 || n == 0x1680 ||
    (0x2000 ≤ n && n ≤ 0x200A) || n == 0x2028 || n == 0x2029 || n == 0x202F || n == 0x205F ||
    n == 0x3000

def trim (text : List Char) : List Char :=
  ((text.dropWhile isBlank).reverse.dropWhile isBlank).reverse

/-- The lines of a text, where `current` is the reversed start of the first. A line ends at a line
feed, and a carriage return before it belongs to the end; the last line may lack both. -/
def linesFrom (current : List Char) : List Char → List (List Char)
  | [] => if current.isEmpty then [] else [current.reverse]
  | '\n' :: rest =>
    let line := match current with
      | '\r' :: line => line
      | line => line
    line.reverse :: linesFrom [] rest
  | c :: rest => linesFrom (c :: current) rest

def lines (text : List Char) : List (List Char) := linesFrom [] text

def after? (marker : List Char) : List Char → Option (List Char)
  | [] => if marker.isEmpty then some [] else none
  | c :: rest =>
    if marker.isPrefixOf (c :: rest) then some ((c :: rest).drop marker.length)
    else after? marker rest

/-- The value of a digit; letters stand for ten to fifteen. -/
def digit? (c : Char) : Option Nat :=
  if '0' ≤ c ∧ c ≤ '9' then some (c.toNat - '0'.toNat)
  else if 'a' ≤ c ∧ c ≤ 'f' then some (c.toNat - 'a'.toNat + 10)
  else if 'A' ≤ c ∧ c ≤ 'F' then some (c.toNat - 'A'.toNat + 10)
  else none

def isDigitOf (base : Nat) (c : Char) : Bool := (digit? c).any (· < base)

/-- The number that digits stand for, the first one highest. -/
def ofDigits (base : Nat) (digits : List Char) : Nat :=
  digits.foldl (fun value c => value * base + (digit? c).getD 0) 0

/-- The number at the start of a text; there must be a digit. -/
def number? (base : Nat) (text : List Char) : Option Nat :=
  match text.takeWhile (isDigitOf base) with
  | [] => none
  | digits => some (ofDigits base digits)

/-- The markers of literals and the base of the digits after each. Hexadecimal literals are looked
for first, then binary ones. -/
def literalForms : List (List Char × Nat) :=
  [("#x".toList, 16), ("#b".toList, 2), ("(_ bv".toList, 10)]

/-- The first literal of the first form that occurs, at `bits` bits. -/
def literal? (text : List Char) (bits : Nat) : Option Constant :=
  let found := literalForms.findSome? fun (marker, base) =>
    (after? marker text).map fun rest => (number? base rest).map (Constant.ofNat · bits)
  found.join

inductive Verdict where
  | sat | unsat | unknown
deriving DecidableEq

def Verdict.ofWord? (word : List Char) : Option Verdict :=
  if word = "sat".toList then some sat
  else if word = "unsat".toList then some unsat
  else if word = "unknown".toList then some unknown
  else none

/-- The verdict on the first line and the lines after it. -/
def verdict? (answer : String) : Option (Verdict × List (List Char)) :=
  match lines answer.toList with
  | [] => none
  | first :: rest => (Verdict.ofWord? (trim first)).map (·, rest)

/-- The literal in the lines after the verdict, which are read as one line. -/
def valueIn (rest : List (List Char)) (bits : Nat) : Option Constant :=
  literal? ([' '].intercalate rest) bits

end BitvectorCode.SmtLib
