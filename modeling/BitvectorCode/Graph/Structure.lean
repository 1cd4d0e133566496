import BitvectorCode.Graph.Basic
import Std.Data.TreeSet

/-!
# Equal structure

Two expressions have the same structure when their nodes agree from the top down, wherever they are
stored. Pairs found equal are remembered, so a shared part is compared once.
-/

namespace BitvectorCode.Graph

/-- Pairs of positions are ordered by the left one first. -/
local instance : Ord (NodeId × NodeId) := lexOrd

abbrev EqualPairs := Std.TreeSet (NodeId × NodeId)

def sameWithin (g : Graph) : (depth : Nat) → NodeId → NodeId → StateM EqualPairs Bool
  | 0, _, _ => return false
  | depth + 1, l, r => do
    if l = r then return true
    if (← get).contains (l, r) then return true
    if g.width l = g.width r && g.sameHead (g.expr l) (g.expr r) then
      let pairs := (g.expr l).children.zip (g.expr r).children
      let equal ← pairs.allM fun (lc, rc) => g.sameWithin depth lc rc
      if equal then modify (·.insert (l, r))
      return equal
    else return false

/-- The two expressions have the same structure. No way down that ends meets a pair of nodes twice,
which bounds the depth also where nodes refer to each other in a circle. -/
def sameStructure (g : Graph) (l r : NodeId) : Bool :=
  ((g.sameWithin (g.size * g.size + 1) l r).run ∅).1

end BitvectorCode.Graph
