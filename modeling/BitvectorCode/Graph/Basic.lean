import BitvectorCode.Constant.Checked

/-!
# Expression graphs

A graph owns nodes and roots and only ever grows: a position, once given out, keeps its node. Adding
a node checks its width against the widths of its children, and the builders below are the ways to
add one. A builder that fails keeps what it added before the failure.

Widths and offsets are 64-bit words. They are natural numbers here and are added as such, which is
right as long as a word can hold the sums.
-/

namespace BitvectorCode

def Expr.withChildren (e : Expr) (ids : List NodeId) : Except Error Expr :=
  match e.withChildren? ids with
  | some e => .ok e
  | none => .error (.arity ids.length e.children.length)

/-- An expression node with the number of bits of its value. -/
structure Node where
  expr : Expr
  width : Nat
deriving DecidableEq, Inhabited

structure Graph where
  nodes : Array Node := #[]
  roots : Array Root := #[]
deriving DecidableEq, Inhabited

namespace Graph

def size (g : Graph) : Nat := g.nodes.size

/-- The node at a position; a position that was never given out reads as an empty constant. -/
def node (g : Graph) (e : NodeId) : Node := g.nodes.getD e default

def expr (g : Graph) (e : NodeId) : Expr := (g.node e).expr

def width (g : Graph) (e : NodeId) : Nat := (g.node e).width

def root (g : Graph) (r : RootId) : Root := g.roots.getD r default

def width? (g : Graph) (e : NodeId) : Except Error Nat :=
  match g.nodes[e]? with
  | some node => .ok node.width
  | none => .error (.invalidNode e)

def commonWidth (g : Graph) (l r : NodeId) : Except Error Nat := do
  let width ← g.width? l
  let other ← g.width? r
  if width = other then .ok width else .error .sort

/-- The width that a node must have over its children. Extensions may take any `declared` width that
is not narrower than their operand, so for them the declared width is the answer. -/
def sortOf (g : Graph) (declared : Nat) : Expr → Except Error Nat
  | .constant c => .ok c.bits
  | .read _ index => do
    let _ ← g.width? index
    .ok 8
  | .concat high low => do
    let hw ← g.width? high
    let lw ← g.width? low
    .ok (hw + lw)
  | .extract inner offset width => do
    let iw ← g.width? inner
    if iw < offset + width ∨ width = 0 then .error .sort else .ok width
  | .zeroExtend inner | .signExtend inner => do
    let iw ← g.width? inner
    if declared < iw then .error .sort else .ok declared
  | .not inner => g.width? inner
  | .binary _ lhs rhs => g.commonWidth lhs rhs
  | .compare _ lhs rhs => do
    let _ ← g.commonWidth lhs rhs
    .ok 1
  | .select cond ifTrue ifFalse => do
    let cw ← g.width? cond
    if cw ≠ 1 then .error .sort else g.commonWidth ifTrue ifFalse

def push (g : Graph) (node : Node) : Graph := { g with nodes := g.nodes.push node }

end Graph

/-- A computation that may add to a graph. -/
abbrev Build := EStateM Error Graph

namespace Build

/-- Adds a node without any check. -/
def push (expr : Expr) (width : Nat) : Build NodeId := fun g => .ok g.size (g.push ⟨expr, width⟩)

def addRoot (root : Root) : Build RootId :=
  fun g => .ok g.roots.size { g with roots := g.roots.push root }

/-- Adds a node whose declared width must be the one its children give. -/
def add (expr : Expr) (width : Nat) : Build NodeId := do
  let g ← get
  match g.sortOf width expr with
  | .error e => throw e
  | .ok expected => if expected = width then push expr width else throw .sort

def constant (c : Constant) : Build NodeId := push (.constant c) c.bits

def read (root : RootId) (index : NodeId) : Build NodeId := do
  if (← get).roots.size ≤ root then throw (.invalidRoot root)
  add (.read root index) 8

/-- The byte of a root at a constant index, held in 32 bits. -/
def readAt (root : RootId) (index : Nat) : Build NodeId := do
  read root (← constant (.ofNat index 32))

def operandWidth (e : NodeId) : Build Nat := do
  match (← get).width? e with
  | .ok width => return width
  | .error e => throw e

def concat (high low : NodeId) : Build NodeId := do
  let hw ← operandWidth high
  let lw ← operandWidth low
  add (.concat high low) (hw + lw)

/-- Puts the bytes of a root from `index` on above `low`, one by one. -/
def readAbove (root : RootId) (low : NodeId) (index : Nat) : (bytes : Nat) → Build NodeId
  | 0 => return low
  | bytes + 1 => do
    let byte ← readAt root index
    readAbove root (← concat byte low) (index + 1) bytes

/-- The little-endian value of `bytes` bytes of a root from `index` on; the last byte is
leftmost. -/
def readBytes (root : RootId) (index bytes : Nat) : Build NodeId := do
  match bytes with
  | 0 => throw .sort
  | bytes + 1 => readAbove root (← readAt root index) (index + 1) bytes

def extract (inner : NodeId) (offset width : Nat) : Build NodeId :=
  add (.extract inner offset width) width

def zeroExtend (inner : NodeId) (width : Nat) : Build NodeId := add (.zeroExtend inner) width

def signExtend (inner : NodeId) (width : Nat) : Build NodeId := add (.signExtend inner) width

def not (inner : NodeId) : Build NodeId := do
  add (.not inner) (← operandWidth inner)

def binary (op : BinaryOp) (lhs rhs : NodeId) : Build NodeId := do
  add (.binary op lhs rhs) (← operandWidth lhs)

def compare (op : CompareOp) (lhs rhs : NodeId) : Build NodeId := add (.compare op lhs rhs) 1

def select (cond ifTrue ifFalse : NodeId) : Build NodeId := do
  add (.select cond ifTrue ifFalse) (← operandWidth ifTrue)

/-- Adds a node with the builder of its kind; an extension is made `width` bits wide. -/
def ofExpr (width : Nat) : Expr → Build NodeId
  | .constant c => constant c
  | .read root index => read root index
  | .concat high low => concat high low
  | .extract inner offset width => extract inner offset width
  | .zeroExtend inner => zeroExtend inner width
  | .signExtend inner => signExtend inner width
  | .not inner => not inner
  | .binary op lhs rhs => binary op lhs rhs
  | .compare op lhs rhs => compare op lhs rhs
  | .select cond ifTrue ifFalse => select cond ifTrue ifFalse

end Build

namespace Graph

def readRoot? (g : Graph) (e : NodeId) : Option Root :=
  match g.expr e with
  | .read r _ => some (g.root r)
  | _ => none

/-- The index of a read node, when it is a constant that a 64-bit word holds. -/
def readIndex? (g : Graph) (e : NodeId) : Option Nat :=
  match g.expr e with
  | .read _ index => (g.expr index).constant?.bind Constant.word?
  | _ => none

/-- The same kind of node with the same attributes, whatever the children. Roots are compared by
name, size and contents; of two extracts only the offsets count, as widths are compared
elsewhere. -/
def sameHead (g : Graph) : Expr → Expr → Bool
  | .constant c, .constant d => c == d
  | .read r _, .read s _ => g.root r == g.root s
  | .concat .., .concat .. => true
  | .extract _ offset _, .extract _ offset' _ => offset == offset'
  | .zeroExtend _, .zeroExtend _ => true
  | .signExtend _, .signExtend _ => true
  | .not _, .not _ => true
  | .binary op _ _, .binary op' _ _ => op == op'
  | .compare op _ _, .compare op' _ _ => op == op'
  | .select .., .select .. => true
  | _, _ => false

end Graph

end BitvectorCode
