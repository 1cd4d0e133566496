/-!
# Saved forms

Graphs, types, code and tables can be written as JSON values and read back. A record is an object of
its fields, and an alternative is an object with the name of the alternative as its only key, or
just that name when the alternative holds nothing. Reading checks the shape of a value and the range
of its numbers and nothing else.
-/

namespace BitvectorCode

inductive Json where
  | null
  | bool (b : Bool)
  | num (n : Int)
  | str (s : String)
  | arr (items : List Json)
  | obj (entries : List (String × Json))
deriving Inhabited

namespace Json

/-! ### Writing -/

def escape (c : Char) : String :=
  match c with
  | '"' => "\\\""
  | '\\' => "\\\\"
  | '\x08' => "\\b"
  | '\x0c' => "\\f"
  | '\n' => "\\n"
  | '\r' => "\\r"
  | '\t' => "\\t"
  | c =>
    if c.toNat < 0x20 then
      let digits := Nat.toDigits 16 c.toNat
      "\\u" ++ String.ofList (List.replicate (4 - digits.length) '0' ++ digits)
    else c.toString

def quote (s : String) : String := "\"" ++ String.join (s.toList.map escape) ++ "\""

mutual
def render : Json → String
  | null => "null"
  | bool b => if b then "true" else "false"
  | num n => toString n
  | str s => quote s
  | arr items => "[" ++ ",".intercalate (renderItems items) ++ "]"
  | obj entries => "\x7b" ++ ",".intercalate (renderEntries entries) ++ "\x7d"

def renderItems : List Json → List String
  | [] => []
  | item :: rest => item.render :: renderItems rest

def renderEntries : List (String × Json) → List String
  | [] => []
  | (key, value) :: rest => (quote key ++ ":" ++ value.render) :: renderEntries rest
end

def ofNat (n : Nat) : Json := num n

def tagged (name : String) (content : Json) : Json := obj [(name, content)]

/-! ### Reading -/

def natBelow? (limit : Nat) : Json → Option Nat
  | num n => if 0 ≤ n ∧ n < limit then some n.toNat else none
  | _ => none

def nat? : Json → Option Nat := natBelow? UInt64.size

def position? : Json → Option Nat := natBelow? UInt32.size

def bool? : Json → Option Bool
  | bool b => some b
  | _ => none

def str? : Json → Option String
  | str s => some s
  | _ => none

def list? {α : Type} (item : Json → Option α) : Json → Option (List α)
  | arr items => items.mapM item
  | _ => none

def entries? {α : Type} (value : Json → Option α) : Json → Option (List (String × α))
  | obj entries => entries.mapM fun (key, v) => (value v).map (key, ·)
  | _ => none

/-- A number in decimal digits, without leading zeros. -/
def decimal? (text : String) : Option Nat :=
  match text.toList with
  | [] => none
  | digits =>
    let n := digits.foldl (fun n c => n * 10 + (c.toNat - '0'.toNat)) 0
    if digits.all Char.isDigit ∧ toString n = text ∧ n < UInt64.size then some n else none

/-- A table from numbers, with decimal keys. -/
def numbered? {α : Type} (value : Json → Option α) : Json → Option (List (Nat × α))
  | obj entries => entries.mapM fun (key, v) => do return (← decimal? key, ← value v)
  | _ => none

/-- The fields called `names`, in that order, of an object; some may not be there. -/
def namedFields? (names : List String) : Json → Option (List (Option Json))
  | obj entries => some (names.map fun name => entries.lookup name)
  | _ => none

/-- The fields of a record, given by name, or without names in the order of `names`. The fields of
an alternative that is no record of its own are always given by name. -/
def fields? (names : List String) : Json → Option (List (Option Json))
  | arr items => if items.length = names.length then some (items.map some) else none
  | j => j.namedFields? names

/-- The name of an alternative and what it holds, which is null for a name alone. -/
def tag? : Json → Option (String × Json)
  | str name => some (name, null)
  | obj [(name, content)] => some (name, content)
  | _ => none

def name? (j : Json) : Option String := do
  match ← j.tag? with
  | (name, null) => return name
  | _ => none

mutual
/-- How deep arrays and objects are nested, the value itself included. -/
def depth : Json → Nat
  | arr items => depthItems items + 1
  | obj entries => depthEntries entries + 1
  | _ => 1

def depthItems : List Json → Nat
  | [] => 0
  | item :: rest => max item.depth (depthItems rest)

def depthEntries : List (String × Json) → Nat
  | [] => 0
  | (_, value) :: rest => max value.depth (depthEntries rest)
end

end Json

end BitvectorCode
