import BitvectorCode.Analysis.Symbols
import BitvectorCode.FreshName
import BitvectorCode.Options
import BitvectorCode.Rewrite.Rename

/-!
# Swapping the byte order of packet fields

A read of a packet byte inside one of the swap ranges becomes a read of the mirrored byte of the
first such range. The packet symbol goes by an unused name in the meantime, so a read that was
already swapped cannot be swapped again.
-/

namespace BitvectorCode

/-- Which bytes to swap, and whether the last swap replaced a read. -/
structure ByteSwapper where
  packetSymbol : String
  ranges : List ByteRange
  swapped : Bool := false

def ByteSwapper.ofOptions (options : Options) : ByteSwapper :=
  { packetSymbol := options.packetSymbol, ranges := options.swapRanges }

/-- A swapper at work on a graph, with a source of unused names. -/
structure Swapping where
  graph : Graph
  names : NameGenerator
  swapper : ByteSwapper

namespace ByteSwapper

/-- Replaces a read of `symbol` at a constant index inside a range by the mirrored read, and notes
that it did. The mirrored index keeps the bits of the index it replaces. -/
def callback (symbol : String) (ranges : List ByteRange) : Callback Bool := fun e => do
  let g := (← get).graph
  match g.expr e with
  | .read root index =>
    if (g.root root).name ≠ symbol then return none
    match (g.expr index).constant? with
    | none => return none
    | some c =>
      match c.word?.bind fun value => (ranges.find? (·.contains value)).map (·.mirror value) with
      | none => return none
      | some mirrored =>
        let index ← CallbackState.build (Build.constant (.ofNat mirrored c.bits))
        modify fun s => { s with notes := true }
        return some (← CallbackState.build (Build.read root index))
  | _ => return none

end ByteSwapper

namespace Swapping

def build {α : Type} (x : Build α) : EStateM Error Swapping α := fun ⟨g, names, swapper⟩ =>
  match x g with
  | .ok a g => .ok a ⟨g, names, swapper⟩
  | .error err g => .error err ⟨g, names, swapper⟩

def mirrorReads (symbol : String) (e : NodeId) : EStateM Error Swapping NodeId :=
  fun ⟨g, names, swapper⟩ =>
    match Pass.rewrite (ByteSwapper.callback symbol swapper.ranges) e ⟨g, ∅, false⟩ with
    | .ok r ⟨g, _, swapped⟩ => .ok r ⟨g, names, { swapper with swapped }⟩
    | .error err ⟨g, _, swapped⟩ => .error err ⟨g, names, { swapper with swapped }⟩

def swap (e : NodeId) : EStateM Error Swapping NodeId := do
  modify fun s => { s with swapper := { s.swapper with swapped := false } }
  let s ← get
  let symbol := s.swapper.packetSymbol
  let (temporary, names) := s.names.generateUnused (s.graph.symbols e) symbol
  set { s with names }
  let renamed ← build (Build.rename (Std.TreeMap.ofList [(symbol, temporary)]) e)
  let mirrored ← mirrorReads temporary renamed
  build (Build.rename (Std.TreeMap.ofList [(temporary, symbol)]) mirrored)

end Swapping

end BitvectorCode
