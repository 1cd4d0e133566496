import BitvectorCode.Error

/-!
# Struct layouts

A struct is laid out from fields given in any order. They are kept by offset, may not overlap, must
be whole bytes and must fit the size of the struct.
-/

namespace BitvectorCode

/-- A struct: its fields by offset, and its size in bytes. -/
structure StructLayout where
  name : String
  fields : List (Field Ty)
  size : Nat
deriving DecidableEq

namespace StructLayout

/-- Puts a field before the first one that does not start earlier. -/
def insertField (field : Field Ty) : List (Field Ty) → List (Field Ty)
  | [] => [field]
  | next :: rest =>
    if field.offset ≤ next.offset then field :: next :: rest else next :: insertField field rest

/-- Orders fields by offset and keeps the given order between equal offsets. -/
def byOffset (fields : List (Field Ty)) : List (Field Ty) := fields.foldr insertField []

/-- The end of the last of `fields`, each of which must be whole bytes and start at or after the end
of the one before it; `start` is the end of what comes before. -/
def checkFields (name : String) (start : Nat) : List (Field Ty) → Except Error Nat
  | [] => .ok start
  | field :: rest =>
    if field.offset < start then .error (.fieldOverlap name field.name)
    else if field.type.bits % 8 ≠ 0 then .error (.unaligned field.type.bits)
    else checkFields name (field.offset + field.type.bytes) rest

def ofFields (name : String) (fields : List (Field Ty)) (size : Nat) :
    Except Error StructLayout := do
  let fields := byOffset fields
  let span ← checkFields name 0 fields
  if size < span then throw (.fieldsPastEnd name span size)
  return ⟨name, fields, size⟩

def field? (s : StructLayout) (name : String) : Option (Field Ty) :=
  s.fields.find? (·.name == name)

def covered (s : StructLayout) : Nat := (s.fields.map (·.type.bytes)).foldr (· + ·) 0

/-- The number of bytes that no field covers. -/
def padding (s : StructLayout) : Nat := s.size - s.covered

def type (s : StructLayout) : Ty := .struct s.name s.fields s.size

end StructLayout

end BitvectorCode
