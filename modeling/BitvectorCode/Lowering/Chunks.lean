import BitvectorCode.Code.Basic
import BitvectorCode.Error
import Std.Data.TreeMap

/-!
# Packet chunks

A chunk is a variable that holds the packet bytes from some offset on, as many as its type has. The
declared chunks do not overlap, so at most one of them holds a given byte. Offsets are 64-bit words;
they are counted in natural numbers here, so the end of a chunk is right where a word can hold it.
-/

namespace BitvectorCode

/-- The declared chunks, by the offset they start at. -/
structure ChunkTable where
  chunks : Std.TreeMap Nat Variable := ∅
deriving Inhabited

namespace ChunkTable

/-- The last chunk that starts before `offset`. -/
def lastBefore? (table : ChunkTable) (offset : Nat) : Option (Nat × Variable) :=
  (table.chunks.toList.filter (·.1 < offset)).getLast?

/-- Declares that `v` holds the packet bytes from `offset` on, which no chunk may hold yet. -/
def declare (offset : Nat) (v : Variable) : EStateM Error ChunkTable Unit := do
  let table ← get
  let overlaps := (table.lastBefore? (offset + v.type.bytes)).any fun (start, existing) =>
    offset < start + existing.type.bytes
  if overlaps then throw (.chunkOverlap v.name offset)
  set { table with chunks := table.chunks.insert offset v }

/-- The chunk that holds the packet byte at `offset`, and where it starts. -/
def lookup (table : ChunkTable) (offset : Nat) : Option (Nat × Variable) :=
  (table.lastBefore? (offset + 1)).filter fun (start, v) => offset < start + v.type.bytes

end ChunkTable

end BitvectorCode
