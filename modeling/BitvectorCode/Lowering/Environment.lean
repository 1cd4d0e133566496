import BitvectorCode.Layout.TypeContext
import BitvectorCode.Lowering.Chunks
import BitvectorCode.Options
import BitvectorCode.Saved.Code
import BitvectorCode.Expr.Basic

/-!
# Environments

What lowering resolves against: a variable for each root symbol, the packet chunks, the types by
width and the options. A read of a root without a declared symbol can be bound to a variable by its
position in the graph.
-/

namespace BitvectorCode

structure SymbolTable where
  symbols : Std.TreeMap String Variable := ∅
  locals : Std.TreeMap NodeId Variable := ∅
deriving Inhabited

namespace SymbolTable

def declare (table : SymbolTable) (symbol : String) (v : Variable) : SymbolTable :=
  { table with symbols := table.symbols.insert symbol v }

def declareLocal (table : SymbolTable) (e : NodeId) (v : Variable) : SymbolTable :=
  { table with locals := table.locals.insert e v }

/-- The saved form, which leaves out the variables bound by position. -/
def toJson (table : SymbolTable) : Json :=
  .obj [("symbols", .obj (table.symbols.toList.map fun (symbol, v) => (symbol, v.toJson)))]

def ofJson? (j : Json) : Option SymbolTable := do
  match ← j.fields? ["symbols"] with
  | [some symbols] => return { symbols := .ofList (← symbols.entries? Variable.ofJson?) }
  | _ => none

end SymbolTable

namespace ChunkTable

def toJson (table : ChunkTable) : Json :=
  .obj [("chunks", .obj (table.chunks.toList.map fun (offset, v) => (toString offset, v.toJson)))]

def ofJson? (j : Json) : Option ChunkTable := do
  match ← j.fields? ["chunks"] with
  | [some chunks] => return ⟨.ofList (← chunks.numbered? Variable.ofJson?)⟩
  | _ => none

end ChunkTable

namespace Options

def toJson (options : Options) : Json :=
  .obj [("packet_symbol", .str options.packetSymbol),
    ("legacy_symbols", .obj (options.legacySymbols.toList.map fun (old, new) => (old, .str new))),
    ("swap_ranges", .arr (options.swapRanges.map fun range =>
      .obj [("low", .ofNat range.low), ("high", .ofNat range.high)]))]

def rangeOfJson? (j : Json) : Option ByteRange := do
  match ← j.fields? ["low", "high"] with
  | [some low, some high] => return ⟨← low.nat?, ← high.nat?⟩
  | _ => none

def ofJson? (j : Json) : Option Options := do
  match ← j.fields? ["packet_symbol", "legacy_symbols", "swap_ranges"] with
  | [some packetSymbol, some legacySymbols, some swapRanges] =>
    return ⟨← packetSymbol.str?, .ofList (← legacySymbols.entries? Json.str?),
      ← swapRanges.list? rangeOfJson?⟩
  | _ => none

end Options

structure Environment where
  symbols : SymbolTable := {}
  chunks : ChunkTable := {}
  types : TypeContext := {}
  options : Options := {}
deriving Inhabited

namespace Environment

def declareSymbol (env : Environment) (symbol : String) (v : Variable) : Environment :=
  { env with symbols := env.symbols.declare symbol v }

def declareLocal (env : Environment) (e : NodeId) (v : Variable) : Environment :=
  { env with symbols := env.symbols.declareLocal e v }

def declareChunk (env : Environment) (offset : Nat) (v : Variable) : Except Error Environment :=
  match ChunkTable.declare offset v env.chunks with
  | .ok _ chunks => .ok { env with chunks }
  | .error err _ => .error err

def declareType (env : Environment) (width : Nat) (type : Ty) : Except Error Environment :=
  return { env with types := ← env.types.declare width type }

def dump (env : Environment) : String :=
  (Json.obj [("symbols", env.symbols.toJson), ("chunks", env.chunks.toJson)]).render

end Environment

end BitvectorCode
