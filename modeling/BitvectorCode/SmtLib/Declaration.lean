import BitvectorCode.Graph.Basic
import BitvectorCode.SmtLib.Command
import Std.Data.TreeMap
import Std.Data.TreeSet

/-!
# Declaring a graph to a solver

Each node becomes one definition over the definitions of its children, so the text grows with the
number of nodes and not with the number of paths. Each root name becomes one array, and known
contents become assertions about its bytes.
-/

namespace BitvectorCode

open SmtLib

namespace Graph

/-- An index as a 32-bit term: extended with zeros, or cut to its low bits. -/
def indexTerm (g : Graph) (index : NodeId) : Term :=
  let width := g.width index
  if width < indexBits then .zeroExtend (indexBits - width) (.definition index)
  else if indexBits < width then .extract (indexBits - 1) 0 (.definition index)
  else .definition index

def term (g : Graph) (e : NodeId) : Term :=
  let width := g.width e
  match g.expr e with
  | .constant c => .literal c.value c.bits
  | .read r index => .select (g.root r).name (g.indexTerm index)
  | .concat high low => .concat (.definition high) (.definition low)
  | .extract inner offset width => .extract (offset + width - 1) offset (.definition inner)
  | .zeroExtend inner => .zeroExtend (width - g.width inner) (.definition inner)
  | .signExtend inner => .signExtend (width - g.width inner) (.definition inner)
  | .not inner => .not (.definition inner)
  | .binary op lhs rhs => .binary op (.definition lhs) (.definition rhs)
  | .compare op lhs rhs => .ofRelation op (.definition lhs) (.definition rhs)
  | .select cond ifTrue ifFalse =>
    .ite .eq (.definition cond) (.bit true) (.definition ifTrue) (.definition ifFalse)

end Graph

/-- Nodes met so far, and those of them whose children all come before them, in that order. -/
structure DependencyOrder where
  seen : Std.TreeSet NodeId := ∅
  order : Array NodeId := #[]

namespace DependencyOrder

def visitWithin (g : Graph) : (depth : Nat) → NodeId → DependencyOrder → DependencyOrder
  | 0, _, found => found
  | depth + 1, e, found =>
    if found.seen.contains e then found
    else
      let below := (g.expr e).children.foldl (fun found child => visitWithin g depth child found)
        { found with seen := found.seen.insert e }
      { below with order := below.order.push e }

end DependencyOrder

namespace Graph

/-- Every node below `targets`, once each, children before parents. -/
def dependencies (g : Graph) (targets : List NodeId) : List NodeId :=
  (targets.foldl (fun found e => DependencyOrder.visitWithin g g.size e found) {}).order.toList

/-- The roots that nodes read, one for each name: the first in the order of `nodes`. -/
def rootsByName (g : Graph) (nodes : List NodeId) : Std.TreeMap String Root :=
  nodes.foldl (fun table e =>
    match g.readRoot? e with
    | some root => table.insertIfNew root.name root
    | none => table) ∅

end Graph

namespace SmtLib

/-- Declares the array of a root, and asserts its known bytes. -/
def declareRoot (root : Root) : List Command :=
  .declareArray root.name :: (root.contents.getD []).zipIdx.map fun (byte, i) =>
    .assert .eq (.select root.name (.literal i indexBits)) (.literal byte.toNat 8)

/-- Declares everything that `targets` depend on: the arrays in the order of their names, then the
nodes, children first. -/
def declarations (g : Graph) (targets : List NodeId) : List Command :=
  let nodes := g.dependencies targets
  (g.rootsByName nodes).toList.flatMap (fun (_, root) => declareRoot root) ++
    nodes.map fun e => .define e (g.width e) (g.term e)

end SmtLib

end BitvectorCode
