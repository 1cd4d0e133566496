import BitvectorCode.Layout.TypeContext
import BitvectorCode.Saved.Json

/-!
# Saved types

The saved forms of types and of the table of types by width. A layout that is read back is not
checked.
-/

namespace BitvectorCode

namespace Ty

mutual
def toJson : Ty → Json
  | primitive bits signed =>
    .tagged "Primitive" (.obj [("bits", .ofNat bits), ("signed", .bool signed)])
  | pointer pointee => .tagged "Pointer" pointee.toJson
  | struct name fields size =>
    .tagged "Struct"
      (.obj [("name", .str name), ("fields", .arr (fieldsToJson fields)), ("size", .ofNat size)])
  | array element count => .tagged "Array" (.arr [element.toJson, .ofNat count])

def fieldsToJson : List (Field Ty) → List Json
  | [] => []
  | ⟨name, offset, type⟩ :: rest =>
    .obj [("name", .str name), ("offset", .ofNat offset), ("type_", type.toJson)] ::
      fieldsToJson rest
end

def fieldOfJson? (type : Json → Option Ty) (j : Json) : Option (Field Ty) := do
  match ← j.fields? ["name", "offset", "type_"] with
  | [some name, some offset, some t] => return ⟨← name.str?, ← offset.nat?, ← type t⟩
  | _ => none

def ofJsonWithin : (depth : Nat) → Json → Option Ty
  | 0, _ => none
  | depth + 1, j => do
    match ← j.tag? with
    | ("Primitive", content) =>
      match ← content.fields? ["bits", "signed"] with
      | [some bits, some signed] => return primitive (← bits.nat?) (← signed.bool?)
      | _ => none
    | ("Pointer", content) => return pointer (← ofJsonWithin depth content)
    | ("Struct", content) =>
      match ← content.fields? ["name", "fields", "size"] with
      | [some name, some fields, some size] =>
        let fields ← fields.list? (fieldOfJson? (ofJsonWithin depth))
        return struct (← name.str?) fields (← size.nat?)
      | _ => none
    | ("Array", .arr [element, count]) =>
      return array (← ofJsonWithin depth element) (← count.nat?)
    | _ => none

def ofJson? (j : Json) : Option Ty := ofJsonWithin j.depth j

end Ty

namespace TypeContext

def toJson (types : TypeContext) : Json :=
  .obj [("overrides", .obj (types.overrides.toList.map fun (width, type) =>
    (toString width, type.toJson)))]

def ofJson? (j : Json) : Option TypeContext := do
  match ← j.fields? ["overrides"] with
  | [some overrides] => return ⟨.ofList (← overrides.numbered? Ty.ofJson?)⟩
  | _ => none

end TypeContext

end BitvectorCode
