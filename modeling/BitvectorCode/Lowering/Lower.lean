import BitvectorCode.Analysis.Symbols
import BitvectorCode.Code.Simplify
import BitvectorCode.Code.Slice
import BitvectorCode.Graph.Memo
import BitvectorCode.Layout.Elements
import BitvectorCode.Lowering.Environment

/-!
# Lowering

An expression becomes typed code over declared variables. A packet read becomes a read of the chunk
that holds the byte, and any other read a read of the variable of its symbol. Nodes are lowered
after their children and simplified at once, so that a run of bytes ends up as one field. A shared
node is lowered once.
-/

namespace BitvectorCode

abbrev LowerM := EStateM Error (Answers Code)

namespace Environment

variable (env : Environment) (g : Graph)

/-- The code of a constant: its elements, if its type is an array, or else its value. -/
def lowerConstant (c : Constant) : Except Error Code := do
  match ← env.types.typeFor c.bits with
  | .array element count =>
    let bits := element.bits
    let elements ← foldElements (fun i values => do
      match (← c.extract (i * bits) bits).word? with
      | some value => return values.push value
      | none => throw (.tooWide bits)) count #[]
    return .constant (.array element count) elements.toList
  | .primitive size signed =>
    match c.word? with
    | some value => return .scalar (.primitive size signed) value
    | none => throw (.tooWide c.bits)
  | type => throw (.unsupported (.constantOfType c type))

def lowerPacketRead (index : NodeId) (name : String) : Except Error Code :=
  match (g.expr index).constant?.bind Constant.word? with
  | none => .error (.unsupported (.packetReadAt (g.render index)))
  | some offset =>
    match env.chunks.lookup offset with
    | some (start, v) => .ok (.read v .byte (.index (offset - start)))
    | none => .error (.unresolved (name ++ s!"[{offset}]") env.dump)

/-- The code of a read of the root `name`, given how to lower its index. -/
def lowerRead (lower : NodeId → LowerM Code) (e : NodeId) (name : String) (index : NodeId) :
    LowerM Code := do
  if name = env.options.packetSymbol then ofExcept (env.lowerPacketRead g index name)
  else match env.symbols.symbols[name]? with
    | some v => return .read v .byte (← lower index)
    | none =>
      match env.symbols.locals[e]? with
      | some v => return .var v
      | none => throw (.unresolved name env.dump)

/-- A read past the end of its variable, which stands for padding. -/
def isPadding : Code → Bool
  | .read v _ index => index.value?.any (v.type.bytes ≤ ·)
  | _ => false

/-- The code of a concat. High padding is dropped, and only a concat of bytes of one symbol is
simplified. -/
def lowerConcat (e : NodeId) (left right : Code) : Except Error Code := do
  if isPadding left then return right
  let concat := Code.concat left right (← env.types.typeFor (g.width e))
  if 1 < (g.symbols e).size then return concat else concat.simplify env.types

def lowerExtract (inner : Code) (offset width : Nat) : Except Error Code := do
  let (part, offset) ← inner.part offset width
  if offset = 0 ∧ width = part.bits then return part
  part.slice offset width (← env.types.typeFor width)

/-- The code of a sign extension: the ones above the operand are put in if its sign bit is set. -/
def lowerSignExtend (inner : Code) (width : Nat) : Except Error Code := do
  let bits := inner.bits
  if bits = width then return inner
  if 64 < width then throw (.tooWide width)
  let type ← env.types.typeFor width
  let sign := Code.binary .shr inner (.scalar inner.type (bits - 1)) inner.type
  let isNegative := Code.binary .equals sign (.scalar inner.type 1) (← env.types.typeFor 1)
  let extended := Code.cast inner type
  let negative := Code.binary .or extended (.scalar type (wordMask width ^^^ wordMask bits)) type
  return .choose isNegative negative extended

def asSigned (code : Code) : Except Error Code := return .cast code (← code.type.toSigned)

/-- The code of an arithmetic operator. The signed operators make their left operand signed. -/
def lowerBinary (op : BinaryOp) (lhs rhs : Code) (width : Nat) : Except Error Code := do
  let type ← env.types.typeFor width
  match op with
  | .add => return .binary .add lhs rhs type
  | .sub => return .binary .sub lhs rhs type
  | .mul => return .binary .mul lhs rhs type
  | .udiv => return .binary .div lhs rhs type
  | .urem => return .binary .mod lhs rhs type
  | .sdiv => return .binary .div (← asSigned lhs) rhs type
  | .srem => return .binary .mod (← asSigned lhs) rhs type
  | .and => return .binary .and lhs rhs type
  | .or => return .binary .or lhs rhs type
  | .xor => return .binary .xor lhs rhs type
  | .shl => return .binary .shl lhs rhs type
  | .lshr => return .binary .shr lhs rhs type
  | .ashr => return .binary .shr (← asSigned lhs) rhs type

/-- The code of a comparison. The signed orderings make both operands signed. -/
def lowerCompare (op : CompareOp) (lhs rhs : Code) : Except Error Code := do
  let type ← env.types.typeFor 1
  match op with
  | .eq => return .binary .equals lhs rhs type
  | .ne => return .binary .notEquals lhs rhs type
  | .ult => return .binary .less lhs rhs type
  | .ule => return .binary .lessEq lhs rhs type
  | .ugt => return .binary .greater lhs rhs type
  | .uge => return .binary .greaterEq lhs rhs type
  | .slt => return .binary .less (← asSigned lhs) (← asSigned rhs) type
  | .sle => return .binary .lessEq (← asSigned lhs) (← asSigned rhs) type
  | .sgt => return .binary .greater (← asSigned lhs) (← asSigned rhs) type
  | .sge => return .binary .greaterEq (← asSigned lhs) (← asSigned rhs) type

end Environment

namespace Graph

def isZeroConstant (g : Graph) (e : NodeId) : Bool := (g.expr e).constant?.any Constant.isZero

/-- The `x` of `0 = (0 = x)`, a truth value that is complemented twice. -/
def doubleComplement? (g : Graph) : Expr → Option NodeId
  | .compare .eq lhs rhs =>
    match g.expr rhs with
    | .compare .eq innerLhs innerRhs =>
      if g.isZeroConstant lhs && g.isZeroConstant innerLhs then some innerRhs else none
    | _ => none
  | _ => none

end Graph

namespace Environment

def lowerWithin (env : Environment) (g : Graph) : (depth : Nat) → NodeId → LowerM Code
  | 0, e => throw (.invalidNode e)
  | depth + 1, e => remember e do
    let lower := env.lowerWithin g depth
    let simplify (code : Code) : LowerM Code := ofExcept (code.simplify env.types)
    let width := g.width e
    match g.expr e with
    | .constant c => simplify (← ofExcept (env.lowerConstant c))
    | .read r index =>
      simplify (← env.lowerRead g lower e (env.options.resolve (g.root r).name) index)
    | .concat high low =>
      let left ← lower high
      let right ← lower low
      ofExcept (env.lowerConcat g e left right)
    | .extract inner offset width =>
      if offset % 8 ≠ 0 then throw (.unaligned offset)
      simplify (← ofExcept (env.lowerExtract (← lower inner) offset width))
    | .zeroExtend inner =>
      let code ← lower inner
      simplify (.cast code (← ofExcept (env.types.typeFor width)))
    | .signExtend inner => simplify (← ofExcept (env.lowerSignExtend (← lower inner) width))
    | .not inner => simplify (.complement (← lower inner))
    | .binary op lhs rhs =>
      let left ← lower lhs
      let right ← lower rhs
      simplify (← ofExcept (env.lowerBinary op left right width))
    | .compare op lhs rhs =>
      match g.doubleComplement? (.compare op lhs rhs) with
      | some x => simplify (← lower x)
      | none =>
        let left ← lower lhs
        let right ← lower rhs
        simplify (← ofExcept (env.lowerCompare op left right))
    | .select cond ifTrue ifFalse =>
      let c ← lower cond
      let t ← lower ifTrue
      let f ← lower ifFalse
      simplify (.choose c t f)

end Environment

/-- A lowering of one graph in one environment, with what the last call lowered. -/
structure Lowerer where
  env : Environment
  graph : Graph
  lowered : Answers Code := ∅

namespace Lowerer

/-- Lowers one expression. Every call starts with nothing lowered, and forgets what it lowered when
it succeeds. -/
def lower (lowerer : Lowerer) (e : NodeId) : Except Error Code × Lowerer :=
  match lowerer.env.lowerWithin lowerer.graph lowerer.graph.size e ∅ with
  | .ok code _ => (.ok code, { lowerer with lowered := ∅ })
  | .error err lowered => (.error err, { lowerer with lowered })

end Lowerer

/-- The typed code of an expression. -/
def Environment.lower (env : Environment) (g : Graph) (e : NodeId) : Except Error Code :=
  (Lowerer.lower { env, graph := g } e).1

end BitvectorCode
