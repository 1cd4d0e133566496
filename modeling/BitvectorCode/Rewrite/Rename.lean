import BitvectorCode.Rewrite.Driver
import BitvectorCode.Solver.Oracle

/-!
# Renaming roots

A renamer replaces reads of roots by reads of the same bytes under new names, all names at once. In
one call every read of an old root goes to one new root, which is added when the first such read is
met.
-/

namespace BitvectorCode

/-- New names by old name. -/
abbrev Translations := Std.TreeMap String String

/-- New roots by old root. -/
abbrev NewRoots := Std.TreeMap RootId RootId

/-- A table of new names, with what the last call rewrote; every call starts afresh. -/
structure Renamer where
  translations : Translations := ∅
  replacements : Replacements := ∅
  newRoots : NewRoots := ∅

namespace Renamer

def ofTranslations (translations : Translations) : Renamer := { translations }

def addTranslation (renamer : Renamer) (old new : String) : Renamer :=
  { renamer with translations := renamer.translations.insert old new }

def reset (renamer : Renamer) : Renamer := { translations := renamer.translations }

/-- The new root for `old`, which is added on first use. -/
def newRoot (old : RootId) (name : String) :
    EStateM Error (CallbackState NewRoots) RootId := do
  match (← get).notes[old]? with
  | some new => return new
  | none =>
    let root := (← get).graph.root old
    let new ← CallbackState.build (Build.addRoot (root.renamed name))
    modify fun s => { s with notes := s.notes.insert old new }
    return new

/-- Replaces a read of a root that has a new name. -/
def callback (translations : Translations) : Callback NewRoots := fun e => do
  let g := (← get).graph
  match g.expr e with
  | .read old index =>
    match translations[(g.root old).name]? with
    | some name =>
      let new ← newRoot old name
      return some (← CallbackState.build (Build.read new index))
    | none => return none
  | _ => return none

end Renamer

structure Renaming where
  graph : Graph
  renamer : Renamer

namespace Renaming

def start : EStateM Error Renaming Unit := modify fun s => { s with renamer := s.renamer.reset }

/-- Renames an expression, going on from what was rewritten before. -/
def resume (e : NodeId) : EStateM Error Renaming NodeId :=
  fun ⟨g, ⟨translations, replacements, newRoots⟩⟩ =>
    match Pass.rewrite (Renamer.callback translations) e ⟨g, replacements, newRoots⟩ with
    | .ok r ⟨g, replacements, newRoots⟩ => .ok r ⟨g, ⟨translations, replacements, newRoots⟩⟩
    | .error err ⟨g, replacements, newRoots⟩ =>
      .error err ⟨g, ⟨translations, replacements, newRoots⟩⟩

def rename (e : NodeId) : EStateM Error Renaming NodeId := do
  start
  resume e

/-- Renames the constraints of one set, sharing what they share. -/
def renameConstraints : List NodeId → ConstraintSet → EStateM Error Renaming ConstraintSet
  | [], renamed => return renamed
  | e :: rest, renamed => do
    let r ← resume e
    let renamed ← ofExcept (renamed.add (← get).graph r)
    renameConstraints rest renamed

/-- Renames every constraint of every set. Sets are renamed independently of each other. -/
def renameSets (sets : List ConstraintSet) : EStateM Error Renaming (List ConstraintSet) :=
  sets.mapM fun set => do
    start
    renameConstraints set.constraints {}

end Renaming

def Build.rename (translations : Translations) (e : NodeId) : Build NodeId := fun g =>
  match Renaming.rename e ⟨g, .ofTranslations translations⟩ with
  | .ok r s => .ok r s.graph
  | .error err s => .error err s.graph

end BitvectorCode
