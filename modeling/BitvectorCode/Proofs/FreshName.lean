import BitvectorCode.FreshName
import Mathlib.Data.Finset.Card
import Std.Data.String.ToNat

/-!
# Fresh and unused names

A name is its base, two underscores and a number without underscores. The last underscore of a name
therefore says where its number begins, whatever the base is, and a generator never hands out a name
twice: not for another base either, and not when the base is itself a generated name.

Of the names for one base at most as many are in use as there are names in use at all. The search
for an unused name stops at the first one that it comes to.
-/

namespace BitvectorCode.NameGenerator

variable {names : NameGenerator} {used : Std.TreeSet String} {base name : String}

theorem underscore_not_mem_toString (k : Nat) : '_' ∉ (toString k).toList := by
  rw [Nat.toString_eq_ofList_toDigits, String.toList_ofList]
  intro h
  have digit : '_'.isDigit = true := Nat.isDigit_of_mem_toDigits (by decide) (by decide) h
  exact absurd digit (by decide)

theorem append_cons_inj_of_last {a : Char} {s s' t t' : List Char} (ht : a ∉ t) (ht' : a ∉ t')
    (h : s ++ a :: t = s' ++ a :: t') : s = s' ∧ t = t' := by
  obtain ⟨between, hs, htail⟩ | ⟨between, hs, htail⟩ := List.append_eq_append_iff.1 h
  all_goals
    cases between with
    | nil => simp_all
    | cons c between =>
      simp_all

/-- A generated name determines its base and its number. -/
theorem name_inj {other : String} {j k : Nat}
    (h : base ++ "__" ++ toString j = other ++ "__" ++ toString k) : base = other ∧ j = k := by
  have texts : base.toList ++ ['_'] ++ '_' :: (toString j).toList =
      other.toList ++ ['_'] ++ '_' :: (toString k).toList := by
    simpa using congrArg String.toList h
  obtain ⟨hbase, hnumber⟩ := append_cons_inj_of_last (underscore_not_mem_toString j)
    (underscore_not_mem_toString k) texts
  exact ⟨String.toList_inj.1 (List.append_cancel_right hbase),
    Nat.repr_injective (String.toList_inj.1 hnumber)⟩

theorem count_generate (other : String) :
    (names.generate base).2.count other =
      if base = other then names.count base + 1 else names.count other := by
  simp [generate, NameGenerator.count, Std.TreeMap.getD_insert]

/-- The generator has given out `name`, for some base. -/
def Given (names : NameGenerator) (name : String) : Prop :=
  ∃ base, ∃ k < names.count base, name = base ++ "__" ++ toString k

theorem not_given_generate : ¬ names.Given (names.generate base).1 := by
  rintro ⟨other, k, hk, h⟩
  obtain ⟨rfl, rfl⟩ := name_inj h
  exact Nat.lt_irrefl _ hk

theorem given_generate_iff :
    (names.generate base).2.Given name ↔ names.Given name ∨ name = (names.generate base).1 := by
  constructor
  · rintro ⟨other, k, hk, rfl⟩
    rw [count_generate] at hk
    split_ifs at hk with h
    · subst h
      obtain hlt | rfl := Nat.lt_succ_iff_lt_or_eq.1 hk
      · exact .inl ⟨base, k, hlt, rfl⟩
      · exact .inr rfl
    · exact .inl ⟨other, k, hk, rfl⟩
  · rintro (⟨other, k, hk, rfl⟩ | rfl)
    · refine ⟨other, k, ?_, rfl⟩
      rw [count_generate]
      split_ifs with h
      · exact Nat.lt_succ_of_lt (h ▸ hk)
      · exact hk
    · exact ⟨base, names.count base, by simp [count_generate], rfl⟩

def generateEach (names : NameGenerator) : List String → List String
  | [] => []
  | base :: bases => (names.generate base).1 :: (names.generate base).2.generateEach bases

theorem not_given_of_mem_generateEach {bases : List String} (h : name ∈ names.generateEach bases) :
    ¬ names.Given name := by
  induction bases generalizing names with
  | nil => cases h
  | cons base bases ih =>
    obtain rfl | hrest := List.mem_cons.1 h
    · exact not_given_generate
    · exact fun given => ih hrest (given_generate_iff.2 (.inl given))

/-- Whatever the bases are and in whatever order they come, and whatever the generator has given out
before, no two calls give out the same name. -/
theorem nodup_generateEach (names : NameGenerator) (bases : List String) :
    (names.generateEach bases).Nodup := by
  induction bases generalizing names with
  | nil => exact List.nodup_nil
  | cons base bases ih =>
    refine List.nodup_cons.2 ⟨fun again => ?_, ih _⟩
    exact not_given_of_mem_generateEach again (given_generate_iff.2 (.inr rfl))

/-- Bases that look like names, or like parts of them, beside each other. -/
example : generateEach {} ["a", "a__0", "a", "a_", "", "_"] =
    ["a__0", "a__0__0", "a__1", "a___0", "__0", "___0"] := by
  decide +kernel

def nth (names : NameGenerator) (base : String) (k : Nat) : String :=
  base ++ "__" ++ toString (names.count base + k)

theorem nth_injective : Function.Injective (names.nth base) := by
  intro j k h
  exact Nat.add_left_cancel (name_inj h).2

theorem nth_generate (k : Nat) : (names.generate base).2.nth base k = names.nth base (k + 1) := by
  rw [nth, nth, count_generate, if_pos rfl, Nat.add_assoc, Nat.add_comm 1 k]

variable (names used base)

/-- Within its tries the search passes over used names only, and it stops early at an unused one. -/
theorem generateWithin_eq (tries : Nat) : ∃ k ≤ tries,
    (generateWithin used base tries names).1 = names.nth base k ∧
      (∀ j < k, names.nth base j ∈ used) ∧ (k < tries → names.nth base k ∉ used) := by
  induction tries generalizing names with
  | zero => exact ⟨0, le_rfl, rfl, by simp, by simp⟩
  | succ tries ih =>
    by_cases h : used.contains (names.nth base 0)
    · have next : generateWithin used base (tries + 1) names =
          generateWithin used base tries (names.generate base).2 := if_pos h
      obtain ⟨k, hk, heq, hused, hlast⟩ := ih (names.generate base).2
      rw [nth_generate] at heq hlast
      refine ⟨k + 1, Nat.succ_le_succ hk, next ▸ heq, fun j hj => ?_, fun hlt => hlast (by lia)⟩
      cases j with
      | zero => exact Std.TreeSet.mem_iff_contains.2 h
      | succ j => exact nth_generate j ▸ hused j (by lia)
    · have found : generateWithin used base (tries + 1) names = names.generate base := if_neg h
      exact ⟨0, Nat.zero_le _, by rw [found]; rfl, by simp,
        fun _ => mt Std.TreeSet.mem_iff_contains.1 h⟩

theorem exists_nth_not_mem : ∃ k ≤ used.size, names.nth base k ∉ used := by
  by_contra! h
  have inside : (Finset.range (used.size + 1)).image (names.nth base) ⊆ used.toList.toFinset := by
    intro name hname
    obtain ⟨k, hk, rfl⟩ := Finset.mem_image.1 hname
    exact List.mem_toFinset.2 (Std.TreeSet.mem_toList.2
      (h k (Nat.lt_succ_iff.1 (Finset.mem_range.1 hk))))
  have few := (Finset.card_le_card inside).trans (List.toFinset_card_le _)
  rw [Finset.card_image_of_injective _ nth_injective, Finset.card_range,
    Std.TreeSet.length_toList] at few
  exact Nat.not_succ_le_self _ few

/-- The search ends, with the first name for `base` that is not in use. -/
theorem generateUnused_eq : ∃ k, (names.generateUnused used base).1 = names.nth base k ∧
    names.nth base k ∉ used ∧ ∀ j < k, names.nth base j ∈ used := by
  obtain ⟨k, hk, heq, hused, hlast⟩ := generateWithin_eq names used base used.size
  refine ⟨k, heq, ?_, hused⟩
  obtain hlt | rfl := Nat.lt_or_eq_of_le hk
  · exact hlast hlt
  · obtain ⟨j, hj, hnot⟩ := exists_nth_not_mem names used base
    obtain hlt | rfl := Nat.lt_or_eq_of_le hj
    · exact absurd (hused j hlt) hnot
    · exact hnot

end BitvectorCode.NameGenerator
