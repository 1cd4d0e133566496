import Std.Data.TreeMap
import Std.Data.TreeSet

/-!
# Fresh names

A generator hands out names `base__0`, `base__1`, … for each base, and never the same name twice.
-/

namespace BitvectorCode

/-- How many names were given out for each base. -/
structure NameGenerator where
  counters : Std.TreeMap String Nat := ∅
deriving Inhabited

namespace NameGenerator

def count (names : NameGenerator) (base : String) : Nat := names.counters.getD base 0

def generate (names : NameGenerator) (base : String) : String × NameGenerator :=
  (base ++ "__" ++ toString (names.count base),
    ⟨names.counters.insert base (names.count base + 1)⟩)

/-- The next name for `base` after at most `tries` names that are in use. -/
def generateWithin (used : Std.TreeSet String) (base : String) :
    (tries : Nat) → NameGenerator → String × NameGenerator
  | 0, names => names.generate base
  | tries + 1, names =>
    let (name, names) := names.generate base
    if used.contains name then generateWithin used base tries names else (name, names)

/-- The next name for `base` that is not in use. Generated names differ from each other,
so at most as many of them are in use as there are names in use. -/
def generateUnused (names : NameGenerator) (used : Std.TreeSet String) (base : String) :
    String × NameGenerator :=
  generateWithin used base used.size names

end NameGenerator

end BitvectorCode
