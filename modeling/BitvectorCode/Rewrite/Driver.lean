import BitvectorCode.Graph.Memo

/-!
# Rewriting from the leaves up

A pass rewrites the children of a node, rebuilds the node if they changed, and then lets a callback
replace it. Nodes are never changed in place: the graph grows, and the answer is a position in it.
Each node is rewritten once for a table of replacements, so the parents of a shared node all get the
same one.
-/

namespace BitvectorCode

/-- What stands for each node rewritten so far. -/
abbrev Replacements := Answers NodeId

/-- What a pass works on: the graph, its replacements, and notes that its callback keeps. -/
structure Pass (σ : Type) where
  graph : Graph
  replacements : Replacements
  notes : σ

structure CallbackState (σ : Type) where
  graph : Graph
  notes : σ

/-- Answers with the replacement of a node, if it is to be replaced. -/
abbrev Callback (σ : Type) := NodeId → EStateM Error (CallbackState σ) (Option NodeId)

namespace CallbackState

def build {σ α : Type} (x : Build α) : EStateM Error (CallbackState σ) α := fun ⟨g, notes⟩ =>
  match x g with
  | .ok a g => .ok a ⟨g, notes⟩
  | .error err g => .error err ⟨g, notes⟩

end CallbackState

namespace Pass

variable {σ : Type}

def build {α : Type} (x : Build α) : EStateM Error (Pass σ) α := fun ⟨g, replacements, notes⟩ =>
  match x g with
  | .ok a g => .ok a ⟨g, replacements, notes⟩
  | .error err g => .error err ⟨g, replacements, notes⟩

def call (callback : Callback σ) (e : NodeId) : EStateM Error (Pass σ) (Option NodeId) :=
  fun ⟨g, replacements, notes⟩ =>
    match callback e ⟨g, notes⟩ with
    | .ok a ⟨g, notes⟩ => .ok a ⟨g, replacements, notes⟩
    | .error err ⟨g, notes⟩ => .error err ⟨g, replacements, notes⟩

/-- The node `e` over `children`, which is `e` itself when they are its own. -/
def rebuild (e : NodeId) (children : List NodeId) : EStateM Error (Pass σ) NodeId := do
  let node := (← get).graph.node e
  if children = node.expr.children then return e
  let expr ← ofExcept (node.expr.withChildren children)
  build (Build.add expr node.width)

def rewriteWithin (callback : Callback σ) : (depth : Nat) → NodeId → EStateM Error (Pass σ) NodeId
  | 0, e => throw (.invalidNode e)
  | depth + 1, e => do
    match (← get).replacements[e]? with
    | some r => return r
    | none =>
      let children ← ((← get).graph.expr e).children.mapM (rewriteWithin callback depth)
      let rebuilt ← rebuild e children
      let result := (← call callback rebuilt).getD rebuilt
      modify fun s => { s with replacements := s.replacements.insert e result }
      return result

/-- Rewrites an expression from its leaves up. A callback may add the node that a child refers to
while the pass runs, so the depth allows for every position a graph can have, not only for those it
has now. -/
def rewrite (callback : Callback σ) (e : NodeId) : EStateM Error (Pass σ) NodeId := do
  rewriteWithin callback (UInt32.size + (← get).graph.size) e

end Pass

namespace Build

/-- Rewrites an expression with no replacements to start from, and answers with the notes too. -/
def rewriteFrom {σ : Type} (notes : σ) (callback : Callback σ) (e : NodeId) :
    Build (NodeId × σ) := fun g =>
  match Pass.rewrite callback e ⟨g, ∅, notes⟩ with
  | .ok r s => .ok (r, s.notes) s.graph
  | .error err s => .error err s.graph

end Build

end BitvectorCode
