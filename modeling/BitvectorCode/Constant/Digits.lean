/-!
# Digits

The digits of a number to a base, the highest first. The number is cut again and again into a high
and a low half of equally many digits: the value of a packet may have hundreds of thousands of
digits, and taking them off one by one would go through the whole number for each.
-/

namespace BitvectorCode

/-- Puts `power`, its square, the square of that and so on in front of `powers`, as far as they are
not above `n`. There are at most `depth` of them. -/
def repeatedSquares (n : Nat) : (depth power : Nat) → (powers : List Nat) → List Nat
  | 0, _, powers => powers
  | depth + 1, power, powers =>
    if n < power then powers else repeatedSquares n depth (power * power) (power :: powers)

/-- Cuts `n` at each of `powers`, which are squares of one another down to the base, and puts the
digits with leading zeros in front of `rest`. -/
def digitsOver : (powers : List Nat) → (n : Nat) → (rest : List Nat) → List Nat
  | [], n, rest => n :: rest
  | power :: powers, n, rest =>
    digitsOver powers (n / power) (digitsOver powers (n % power) rest)

/-- The digits of `n` to `base`, without leading zeros but at least one. -/
def digits (base n : Nat) : List Nat :=
  match (digitsOver (repeatedSquares n (n.log2 + 1) base []) n []).dropWhile (· == 0) with
  | [] => [0]
  | high :: low => high :: low

def decimal (n : Nat) : String := String.ofList ((digits 10 n).map Nat.digitChar)

def hexadecimal (n : Nat) : String :=
  String.ofList ((digits 16 n).map fun digit => digit.digitChar.toUpper)

end BitvectorCode
