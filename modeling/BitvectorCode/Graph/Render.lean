import BitvectorCode.Graph.Basic

/-!
# Text of an expression

Expressions are shown in prefix form, `(Add w8 0x1:8 (Read w8 0x0:32 packet))`, every node with its
width. A shared node is written out wherever it is used.
-/

namespace BitvectorCode.Graph

def renderWithin (g : Graph) : (depth : Nat) → NodeId → String
  | 0, _ => ""
  | depth + 1, e =>
    let width := toString (g.width e)
    match g.expr e with
    | .constant c => c.render
    | .read root index =>
      "(Read w8 " ++ g.renderWithin depth index ++ " " ++ (g.root root).name ++ ")"
    | .extract inner offset width =>
      s!"(Extract w{width} {offset} " ++ g.renderWithin depth inner ++ ")"
    | other =>
      let children := other.children.map fun child => " " ++ g.renderWithin depth child
      "(" ++ other.mnemonic ++ " w" ++ width ++ String.join children ++ ")"

/-- The text of an expression. No path through a graph is longer than the graph. -/
def render (g : Graph) (e : NodeId) : String := g.renderWithin g.size e

end BitvectorCode.Graph
