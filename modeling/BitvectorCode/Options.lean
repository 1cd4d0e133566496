import Std.Data.TreeMap

/-!
# Options

Which root holds the raw bytes of a packet, which root names stand for others, and which ranges of
packet bytes are reversed when the byte order of header fields is swapped.
-/

namespace BitvectorCode

/-- The byte positions from `low` to `high`, both included. -/
structure ByteRange where
  low : Nat
  high : Nat
deriving DecidableEq

namespace ByteRange

/-- The range between two ends, given in either order. -/
def between (a b : Nat) : ByteRange := if a ≤ b then ⟨a, b⟩ else ⟨b, a⟩

def contains (range : ByteRange) (index : Nat) : Bool := range.low ≤ index && index ≤ range.high

/-- The position as far from the high end as `index` is from the low end. -/
def mirror (range : ByteRange) (index : Nat) : Nat := range.high + range.low - index

theorem mirror_mem {range : ByteRange} {index : Nat} (h : range.contains index) :
    range.contains (range.mirror index) := by
  simp only [contains, Bool.and_eq_true, decide_eq_true_eq] at h ⊢
  unfold mirror
  omega

theorem mirror_mirror {range : ByteRange} {index : Nat} (h : range.contains index) :
    range.mirror (range.mirror index) = index := by
  simp only [contains, Bool.and_eq_true, decide_eq_true_eq] at h
  unfold mirror
  omega

/-- The sum of the ends may pass the size of a 64-bit word, but what wraps around there wraps
back. -/
theorem toNat_mirror {range : ByteRange} {index : Nat} (h : range.contains index)
    (word : range.high < UInt64.size) :
    (UInt64.ofNat range.high + UInt64.ofNat range.low - UInt64.ofNat index).toNat =
      range.mirror index := by
  simp only [contains, Bool.and_eq_true, decide_eq_true_eq] at h
  simp only [UInt64.toNat_sub, UInt64.toNat_add, UInt64.toNat_ofNat', UInt64.size] at word ⊢
  unfold mirror
  omega

end ByteRange

structure Options where
  packetSymbol : String := "packet_chunks"
  legacySymbols : Std.TreeMap String String := .ofList
    [("VIGOR_DEVICE", "DEVICE"), ("next_time", "now"), ("pkt_len", "packet_length")]
  swapRanges : List ByteRange := [⟨0, 5⟩, ⟨6, 11⟩, ⟨53, 56⟩, ⟨57, 60⟩, ⟨82, 83⟩, ⟨84, 85⟩]
deriving Inhabited

instance : BEq Options where
  beq a b := a.packetSymbol == b.packetSymbol &&
    a.legacySymbols.toList == b.legacySymbols.toList && a.swapRanges == b.swapRanges

/-- The name a root goes by: its modern name if it has a legacy one. -/
def Options.resolve (options : Options) (name : String) : String :=
  options.legacySymbols.getD name name

end BitvectorCode
