import BitvectorCode.Constant.Digits
import Mathlib.Data.Nat.Digits.Lemmas

/-!
# The digits of a number

Cutting a number into halves of equally many digits gives the digits that taking them off one by one
does, so the decimal text of a number is the usual one.
-/

namespace BitvectorCode

variable {base n : Nat}

def squares (base : Nat) : Nat → List Nat
  | 0 => []
  | k + 1 => base ^ 2 ^ k :: squares base k

theorem pow_two_pow_succ (base k : Nat) : base ^ 2 ^ (k + 1) = base ^ 2 ^ k * base ^ 2 ^ k := by
  rw [Nat.pow_succ 2 k, Nat.mul_two, Nat.pow_add]

theorem repeatedSquares_eq (hb : 2 ≤ base) (depth k : Nat) (hn : n < 2 ^ (k + depth)) :
    ∃ m, repeatedSquares n depth (base ^ 2 ^ k) (squares base k) = squares base m ∧
      n < base ^ 2 ^ m := by
  induction depth generalizing k with
  | zero =>
    refine ⟨k, rfl, ?_⟩
    calc n
      _ < 2 ^ k := hn
      _ ≤ 2 ^ 2 ^ k := Nat.pow_le_pow_right (by decide) Nat.lt_two_pow_self.le
      _ ≤ base ^ 2 ^ k := Nat.pow_le_pow_left hb _
  | succ depth ih =>
    unfold repeatedSquares
    split
    · next hlt => exact ⟨k, rfl, hlt⟩
    · rw [← pow_two_pow_succ]
      exact ih (k + 1) (by rwa [Nat.add_right_comm])

theorem digitsOver_eq (hb : 0 < base) (k : Nat) (rest : List Nat) (hn : n < base ^ 2 ^ k) :
    ∃ ds, digitsOver (squares base k) n rest = ds ++ rest ∧ ds.length = 2 ^ k ∧
      (∀ d ∈ ds, d < base) ∧ Nat.ofDigits base ds.reverse = n := by
  induction k generalizing n rest with
  | zero => exact ⟨[n], rfl, rfl, by simpa using hn, by simp⟩
  | succ k ih =>
    rw [pow_two_pow_succ] at hn
    have hpos : 0 < base ^ 2 ^ k := Nat.pow_pos hb
    obtain ⟨low, hlow, hlowlen, hlowlt, hlowval⟩ := ih rest (Nat.mod_lt n hpos)
    obtain ⟨high, hhigh, hhighlen, hhighlt, hhighval⟩ :=
      ih (low ++ rest) (Nat.div_lt_of_lt_mul hn)
    refine ⟨high ++ low, ?_, ?_, ?_, ?_⟩
    · rw [squares, digitsOver, hlow, hhigh, List.append_assoc]
    · rw [List.length_append, hhighlen, hlowlen, Nat.pow_succ, Nat.mul_two]
    · intro d hd
      exact (List.mem_append.1 hd).elim (hhighlt d) (hlowlt d)
    · rw [List.reverse_append, Nat.ofDigits_append, hlowval, hhighval, List.length_reverse, hlowlen]
      exact Nat.mod_add_div n _

theorem ofDigits_dropWhile (ds : List Nat) :
    Nat.ofDigits base (ds.dropWhile (· == 0)).reverse = Nat.ofDigits base ds.reverse := by
  induction ds with
  | nil => rfl
  | cons d ds ih =>
    by_cases hd : d = 0
    · simpa [hd, Nat.ofDigits_append] using ih
    · simp [hd]

theorem digits_eq (hb : 2 ≤ base) :
    digits base n = if n = 0 then [0] else (Nat.digits base n).reverse := by
  have hlog : n < 2 ^ (0 + (n.log2 + 1)) := by
    rw [Nat.zero_add]
    exact Nat.lt_log2_self
  obtain ⟨k, hpowers, hlt⟩ := repeatedSquares_eq hb (n.log2 + 1) 0 hlog
  obtain ⟨ds, hds, -, hdlt, hvalue⟩ := digitsOver_eq (by omega) k [] hlt
  have hpowers : repeatedSquares n (n.log2 + 1) base [] = squares base k := by
    rw [← hpowers, Nat.pow_zero, Nat.pow_one, squares]
  have hvalue' := (ofDigits_dropWhile ds).trans hvalue
  rw [digits, hpowers, hds, List.append_nil]
  cases hdrop : ds.dropWhile (· == 0) with
  | nil =>
    rw [hdrop] at hvalue'
    have hn : n = 0 := hvalue'.symm
    rw [if_pos hn]
  | cons high low =>
    have hhigh : high ≠ 0 := by
      have := List.head_dropWhile_not (· == 0) (l := ds) (by simp [hdrop])
      simpa [hdrop] using this
    have hmem : ∀ d ∈ high :: low, d < base := by
      intro d hd
      rw [← hdrop] at hd
      exact hdlt d ((List.dropWhile_suffix _).subset hd)
    rw [hdrop] at hvalue'
    have hunique := Nat.digits_ofDigits base hb (high :: low).reverse
      (fun d hd => hmem d (List.mem_reverse.1 hd)) (by simp [hhigh])
    rw [hvalue'] at hunique
    have hn : n ≠ 0 := by
      rintro rfl
      simp at hunique
    rw [if_neg hn, hunique, List.reverse_reverse]

theorem digits_ne_nil (hb : 2 ≤ base) : digits base n ≠ [] := by
  rw [digits_eq hb]
  split_ifs with hn
  · exact List.cons_ne_nil 0 []
  · exact mt List.reverse_eq_nil_iff.1 (Nat.digits_ne_nil_iff_ne_zero.2 hn)

theorem lt_of_mem_digits (hb : 2 ≤ base) {d : Nat} (hd : d ∈ digits base n) : d < base := by
  rw [digits_eq hb] at hd
  split_ifs at hd
  · rw [List.mem_singleton.1 hd]
    lia
  · exact Nat.digits_lt_base hb (List.mem_reverse.1 hd)

theorem ofDigits_digits (hb : 2 ≤ base) : Nat.ofDigits base (digits base n).reverse = n := by
  rw [digits_eq hb]
  split_ifs with hn
  · rw [hn]
    rfl
  · rw [List.reverse_reverse, Nat.ofDigits_digits]

theorem toDigits_eq (hb : 1 < base) (hn : n ≠ 0) :
    Nat.toDigits base n = ((Nat.digits base n).reverse).map Nat.digitChar := by
  induction n using Nat.strong_induction_on with
  | _ n ih =>
    rcases Nat.lt_or_ge n base with hlt | hge
    · rw [Nat.toDigits_of_lt_base hlt, Nat.digits_of_lt base n hn hlt]
      rfl
    · have hquot : n / base ≠ 0 := by
        have := Nat.div_pos hge (by omega)
        omega
      rw [Nat.toDigits_of_base_le hb hge, ih _ (Nat.div_lt_self (by omega) hb) hquot,
        Nat.digits_def' hb (Nat.pos_of_ne_zero hn), List.reverse_cons, List.map_append]
      rfl

theorem decimal_eq_toString (n : Nat) : decimal n = toString n := by
  change String.ofList _ = String.ofList (Nat.toDigits 10 n)
  rw [digits_eq (by decide)]
  by_cases hn : n = 0
  · rw [hn]
    rfl
  · rw [if_neg hn, toDigits_eq (by decide) hn]

end BitvectorCode
