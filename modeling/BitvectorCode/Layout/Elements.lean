/-!
# Walks over elements

An array type may have far more elements than there are bits to take them from. A walk over its
elements therefore makes no list of their indices: it goes from one to the next and ends at the
first that fails. It gives the same answer as a fold over the list.
-/

namespace BitvectorCode

variable {m : Type → Type} [Monad m] {α : Type}

@[specialize] def foldElementsFrom (step : Nat → α → m α) : (start count : Nat) → α → m α
  | _, 0, a => pure a
  | start, count + 1, a => do foldElementsFrom step (start + 1) count (← step start a)

/-- Takes a step for each of `count` elements, one after the other. A step that fails is the last,
however many elements are left. -/
@[inline] def foldElements (step : Nat → α → m α) (count : Nat) (a : α) : m α :=
  foldElementsFrom step 0 count a

theorem foldElementsFrom_eq_foldlM (step : Nat → α → m α) (start count : Nat) (a : α) :
    foldElementsFrom step start count a =
      (List.range' start count).foldlM (fun a i => step i a) a := by
  induction count generalizing start a with
  | zero => rfl
  | succ count ih => simp only [foldElementsFrom, List.range'_succ, List.foldlM_cons, ih]

theorem foldElements_eq_foldlM (step : Nat → α → m α) (count : Nat) (a : α) :
    foldElements step count a = (List.range count).foldlM (fun a i => step i a) a := by
  rw [foldElements, foldElementsFrom_eq_foldlM, List.range_eq_range']

end BitvectorCode
