import BitvectorCode.Graph.Render
import BitvectorCode.Graph.Structure
import Std.Data.TreeMap
import Std.Data.TreeSet

/-!
# Symbols of an expression

The symbols of an expression are the names of the roots it reads. A walk from the top down and from
left to right lists every reachable read once, in the order it is first met; a walk can go on over
further expressions and passes over what it has already seen.
-/

namespace BitvectorCode

/-- What walks have met so far: a mark for each position whose node was seen, the names of the roots
that are read, and the reads of each of them in the order met. -/
structure ReadWalk where
  seen : Array Bool := #[]
  symbols : Std.TreeSet String := ∅
  reads : Std.TreeMap String (Array NodeId) := ∅
deriving Inhabited

namespace ReadWalk

def readsOf (walk : ReadWalk) (name : String) : List NodeId := (walk.reads.getD name #[]).toList

def record (name : String) (e : NodeId) (walk : ReadWalk) : ReadWalk :=
  { walk with
    reads := walk.reads.alter name fun reads => some ((reads.getD #[]).push e)
    symbols := walk.symbols.insert name }

def meet (g : Graph) (e : NodeId) (walk : ReadWalk) : ReadWalk :=
  let walk := { walk with seen := walk.seen.setIfInBounds e true }
  match g.expr e with
  | .read r _ => walk.record (g.root r).name e
  | _ => walk

def visitWithin (g : Graph) : (depth : Nat) → NodeId → ReadWalk → ReadWalk
  | 0, _, walk => walk
  | depth + 1, e, walk =>
    if walk.seen.getD e false then walk
    else
      (g.expr e).children.foldl (fun walk child => visitWithin g depth child walk) (walk.meet g e)

/-- Walks on over an expression of a graph, which may have grown since. -/
def visit (walk : ReadWalk) (g : Graph) (e : NodeId) : ReadWalk :=
  visitWithin g g.size e { walk with seen := walk.seen.rightpad g.size false }

end ReadWalk

namespace Graph

def readWalk (g : Graph) (e : NodeId) : ReadWalk := ReadWalk.visit {} g e

/-- The names of the roots that an expression reads. -/
def symbols (g : Graph) (e : NodeId) : Std.TreeSet String := (g.readWalk e).symbols

def symbol (g : Graph) (e : NodeId) : Except Error String :=
  match (g.symbols e).toList with
  | [name] => .ok name
  | _ => .error (.ambiguousSymbols (g.render e))

/-- The reads of the roots named `symbol`, each once, in the order met. -/
def readsOf (g : Graph) (symbol : String) (e : NodeId) : List NodeId :=
  (g.readWalk e).readsOf symbol

/-- The two expressions read the same bytes of `symbol` in the same order. -/
def sameReads (g : Graph) (symbol : String) (l r : NodeId) : Bool :=
  let left := g.readsOf symbol l
  let right := g.readsOf symbol r
  left.length == right.length && (left.zip right).all fun (a, b) => g.sameStructure a b

end Graph

end BitvectorCode
