import BitvectorCode.Proofs.Constant.Bits
import Mathlib.Data.List.GetD
import Mathlib.Data.Nat.Digits.Defs

/-!
# Constants and their bytes

The bytes of a constant are the digits of its value to the base 256, the lowest first, as many as
its width needs. A bit of the value lies in one of them. Bytes are read back from the constant that
they make up, and a constant from its bytes, at a width of whole bytes.
-/

namespace BitvectorCode

theorem testBit_ofDigits {d : Nat} (hd : 0 < d) {digits : List Nat} (h : ∀ n ∈ digits, n < 2 ^ d)
    (i : Nat) :
    (Nat.ofDigits (2 ^ d) digits).testBit i = (digits.getD (i / d) 0).testBit (i % d) := by
  induction digits generalizing i with
  | nil => simp
  | cons n digits ih =>
    have hn : n < 2 ^ d := h n List.mem_cons_self
    have ih := ih (fun m hm => h m (List.mem_cons_of_mem n hm)) (i - d)
    rw [Nat.ofDigits_cons, Nat.add_comm, Nat.testBit_two_pow_mul_add _ hn]
    by_cases hi : i < d
    · simp [hi, Nat.div_eq_of_lt hi, Nat.mod_eq_of_lt hi]
    · have hle : d ≤ i := Nat.not_lt.1 hi
      have hdiv : i / d = (i - d) / d + 1 := Nat.div_eq_sub_div hd hle
      have hmod : i % d = (i - d) % d := Nat.mod_eq_sub_mod hle
      rw [if_neg hi, ih, hdiv, hmod, List.getD_cons_succ]

theorem ofDigits_lt {d : Nat} (hd : 0 < d) {digits : List Nat} (h : ∀ n ∈ digits, n < 2 ^ d) :
    Nat.ofDigits (2 ^ d) digits < 2 ^ (digits.length * d) := by
  have hbase : 1 < 2 ^ d := Nat.one_lt_two_pow (Nat.ne_of_gt hd)
  calc Nat.ofDigits (2 ^ d) digits
    _ < (2 ^ d) ^ digits.length := Nat.ofDigits_lt_base_pow_length hbase h
    _ = 2 ^ (digits.length * d) := by rw [← Nat.pow_mul, Nat.mul_comm]

theorem natOfBytes_eq_ofDigits (bytes : List UInt8) :
    natOfBytes bytes = Nat.ofDigits (2 ^ 8) (bytes.map UInt8.toNat) := by
  induction bytes with
  | nil => rfl
  | cons byte bytes ih =>
    rw [List.map_cons, Nat.ofDigits_cons, ← ih]
    rfl

theorem toNat_lt_of_mem_map (bytes : List UInt8) : ∀ n ∈ bytes.map UInt8.toNat, n < 2 ^ 8 := by
  intro n hn
  obtain ⟨byte, -, rfl⟩ := List.mem_map.1 hn
  exact byte.toNat_lt

theorem testBit_natOfBytes (bytes : List UInt8) (i : Nat) :
    (natOfBytes bytes).testBit i = (bytes.getD (i / 8) 0).toNat.testBit (i % 8) := by
  rw [natOfBytes_eq_ofDigits, testBit_ofDigits (by decide) (toNat_lt_of_mem_map bytes)]
  exact congrArg (Nat.testBit · (i % 8)) (List.getD_map bytes 0 UInt8.toNat)

theorem Constant.ofBytes_append (low high : List UInt8) :
    Constant.ofBytes (low ++ high) = (Constant.ofBytes high).concat (Constant.ofBytes low) := by
  apply eq_of_testBit
  · simp only [ofBytes, bits_ofNat, bits_concat, List.length_append]
    omega
  intro i
  simp only [testBit_concat, ofBytes, testBit_ofNat, bits_ofNat, testBit_natOfBytes,
    List.length_append]
  by_cases hlow : i < 8 * low.length
  · have hall : i < 8 * (low.length + high.length) := by omega
    have hall' : i < 8 * high.length + 8 * low.length := by omega
    have hbelow : ¬ 8 * low.length ≤ i := by omega
    have hbyte : i / 8 < low.length := by omega
    simp [hlow, hall, hall', hbelow, List.getElem?_append_left hbyte]
  · have hle : 8 * low.length ≤ i := by omega
    have hbyte : low.length ≤ i / 8 := by omega
    have hdiv : (i - 8 * low.length) / 8 = i / 8 - low.length := by omega
    have hmod : (i - 8 * low.length) % 8 = i % 8 := by omega
    have hhigh : i - 8 * low.length < 8 * high.length ↔
        i < 8 * (low.length + high.length) := by omega
    have hall : i < 8 * high.length + 8 * low.length ↔
        i < 8 * (low.length + high.length) := by omega
    by_cases hi : i < 8 * (low.length + high.length) <;>
      simp [hlow, hle, hi, hhigh, hall, hdiv, hmod, List.getElem?_append_right hbyte]

theorem natOfBytes_lt (bytes : List UInt8) : natOfBytes bytes < 2 ^ (8 * bytes.length) := by
  have bound := ofDigits_lt (by decide) (toNat_lt_of_mem_map bytes)
  rwa [← natOfBytes_eq_ofDigits, List.length_map, Nat.mul_comm] at bound

theorem bytesOfNat_natOfBytes (bytes : List UInt8) : bytesOfNat bytes.length
    (natOfBytes bytes) = bytes := by
  induction bytes with
  | nil => rfl
  | cons byte bytes ih =>
    have hlt : byte.toNat < 256 := byte.toNat_lt
    have low : UInt8.ofNat (byte.toNat + 256 * natOfBytes bytes) = byte := by
      apply UInt8.toNat_inj.1
      rw [UInt8.toNat_ofNat', Nat.add_mul_mod_self_left, Nat.mod_eq_of_lt hlt]
    have high : (byte.toNat + 256 * natOfBytes bytes) / 256 = natOfBytes bytes := by omega
    exact congrArg₂ List.cons low (high.symm ▸ ih)

theorem natOfBytes_bytesOfNat (count value : Nat) :
    natOfBytes (bytesOfNat count value) = value % 2 ^ (8 * count) := by
  induction count generalizing value with
  | zero => simp [bytesOfNat, natOfBytes, Nat.mod_one]
  | succ count ih =>
    calc natOfBytes (bytesOfNat (count + 1) value)
      _ = value % 256 + 256 * natOfBytes (bytesOfNat count (value / 256)) := by
        rw [← UInt8.toNat_ofNat']
        rfl
      _ = value % 256 + 256 * (value / 256 % 2 ^ (8 * count)) := by rw [ih]
      _ = value % (2 ^ 8 * 2 ^ (8 * count)) := Nat.mod_mul.symm
      _ = value % 2 ^ (8 * (count + 1)) := by rw [← Nat.pow_add, Nat.mul_succ, Nat.add_comm]

namespace Constant

variable {c : Constant}

@[simp] theorem length_toBytes : c.toBytes.length = (c.bits + 7) / 8 := length_bytesOfNat _ _

theorem toBytes_ofBytes (bytes : List UInt8) : (ofBytes bytes).toBytes = bytes := by
  have count : (8 * bytes.length + 7) / 8 = bytes.length := by omega
  rw [toBytes, ofBytes, bits_ofNat, count, value_ofNat, Nat.mod_eq_of_lt (natOfBytes_lt bytes),
    bytesOfNat_natOfBytes]

theorem ofBytes_toBytes (c : Constant) : ofBytes c.toBytes = c.zeroExtend
    (8 * ((c.bits + 7) / 8)) := by
  rw [ofBytes, length_toBytes, toBytes, natOfBytes_bytesOfNat, zeroExtend,
    ofNat, ofNat, lowBits_eq_mod, lowBits_eq_mod, Nat.mod_mod]

end Constant

end BitvectorCode
