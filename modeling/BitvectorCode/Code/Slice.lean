import BitvectorCode.Code.Basic
import BitvectorCode.Constant.Checked

/-!
# Slices of code

The bits of a code tree from an offset on, taken from the smallest part that holds them: a read from
a variable or from a further byte of a read, a smaller constant, or a shift, a mask and a cast.
-/

namespace BitvectorCode

def wordMask (width : Nat) : Nat := ones (min width 64)

namespace Code

def index (value : Nat) : Code := scalar (.unsigned 32) value

/-- The part of a tree of concats that holds the bits from `offset` on, and their offset in it. The
descent stops at a part that has exactly these bits, or is no concat. -/
def part (code : Code) (offset width : Nat) : Except Error (Code × Nat) :=
  match code with
  | concat left right _ =>
    if offset = 0 ∧ width = code.bits then .ok (code, offset)
    else if offset + width ≤ right.bits then right.part offset width
    else if right.bits ≤ offset ∧ offset - right.bits + width ≤ left.bits then
      left.part (offset - right.bits) width
    else .error (.straddlesConcat offset width)
  | _ => .ok (code, offset)

/-- The elements at `start`, …, `start + count - 1`, which must all exist. -/
def elements? (values : List Nat) (start count : Nat) : Option (List Nat) :=
  if start + count ≤ values.length then some ((values.drop start).take count) else none

/-- The word whose `bits`-bit digits are `values`, least significant first. -/
def joinElements (bits : Nat) (values : List Nat) : Nat :=
  values.zipIdx.foldl (fun word (value, i) => word ||| lowBits (value <<< (i * bits)) 64) 0

/-- The bits of a constant from `offset` on, as a constant of type `target`. Elements of an array
are only taken whole; they stay elements when the target has elements of their size. -/
def sliceConstant (type : Ty) (values : List Nat) (offset width : Nat) (target : Ty) :
    Except Error Code :=
  match type with
  | .primitive .. =>
    let value := if 64 ≤ offset then 0 else values.headD 0 >>> offset
    .ok (scalar target (value &&& wordMask width))
  | .array element _ =>
    let bits := element.bits
    if offset % bits ≠ 0 ∨ width % bits ≠ 0 then .error (.unaligned offset)
    else match elements? values (offset / bits) (width / bits) with
      | none => .error (.extractPastEnd type)
      | some slice =>
        let elementwise := match target with
          | .array targetElement _ => targetElement.bits == bits
          | _ => false
        if elementwise then .ok (constant target slice)
        else if 64 < width then .error (.tooWide width)
        else .ok (scalar target (joinElements bits slice))
  | _ => .error (.unsupported (.extractFromConstant type))

/-- The bits of any other value from `offset` on, shifted down and cut to type `target`. -/
def shiftAndMask (code : Code) (offset width : Nat) (target : Ty) : Except Error Code :=
  let type := code.type
  if !type.isPrimitive then .error (.unsupported (.extractFrom type offset width))
  else if 0 < offset then
    let shifted := binary .shr code (scalar type offset) type
    let masked := binary .and shifted (scalar type (wordMask width)) type
    .ok (cast masked target)
  else .ok (cast code target)

/-- The bits from `offset` on, as a value of type `target` of `width` bits. -/
def slice (code : Code) (offset width : Nat) (target : Ty) : Except Error Code :=
  match code with
  | var v => .ok (read v target (index (offset / 8)))
  | constant type values => sliceConstant type values offset width target
  | read v _ i =>
    match i.value? with
    | some start => .ok (read v target (index (start + offset / 8)))
    | none => code.shiftAndMask offset width target
  | _ => code.shiftAndMask offset width target

end Code

end BitvectorCode
