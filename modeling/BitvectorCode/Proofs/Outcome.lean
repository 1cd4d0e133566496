import BitvectorCode.Graph.Memo

/-!
# Outcomes of computations

A computation with a state and errors is described by what holds when it answers and what holds when
it fails. The rules below follow the shape of the computation, one for each way to build it. A table
of remembered answers changes no outcome as long as every answer in it is right.
-/

namespace BitvectorCode

variable {ε σ α β : Type}

theorem bind_eq_ok_iff {x : Except ε α} {f : α → Except ε β} {b : β} :
    (x >>= f) = .ok b ↔ ∃ a, x = .ok a ∧ f a = .ok b := by
  cases x <;> simp [bind, Except.bind]

theorem bind_eq_error_iff {x : Except ε α} {f : α → Except ε β} {err : ε} :
    (x >>= f) = .error err ↔ x = .error err ∨ ∃ a, x = .ok a ∧ f a = .error err := by
  cases x <;> simp [bind, Except.bind]

/-- From every state with `pre`, the computation ends in an answer with `post` or an error with
`fail`. -/
def Ensures (pre : σ → Prop) (x : EStateM ε σ α) (post : α → σ → Prop)
    (fail : ε → σ → Prop) : Prop :=
  ∀ s, pre s → match x s with
    | .ok a t => post a t
    | .error err t => fail err t

namespace Ensures

variable {pre pre' : σ → Prop} {post post' m : α → σ → Prop} {fail fail' : ε → σ → Prop}
variable {x : EStateM ε σ α}

theorem weaken (h : Ensures pre x post fail) (hpre : ∀ s, pre' s → pre s)
    (hpost : ∀ a s, post a s → post' a s) (hfail : ∀ err s, fail err s → fail' err s) :
    Ensures pre' x post' fail' := by
  intro s hs
  have := h s (hpre s hs)
  cases hx : x s with
  | ok a t => exact hpost a t (by simpa only [hx] using this)
  | error err t => exact hfail err t (by simpa only [hx] using this)

theorem weaken_pre (h : Ensures pre x post fail) (hpre : ∀ s, pre' s → pre s) :
    Ensures pre' x post fail :=
  h.weaken hpre (fun _ _ ha => ha) fun _ _ herr => herr

theorem weaken_fail (h : Ensures pre x post fail) (hfail : ∀ err s, fail err s → fail' err s) :
    Ensures pre x post fail' :=
  h.weaken (fun _ hs => hs) (fun _ _ ha => ha) hfail

theorem and (h : Ensures pre x post fail) (h' : Ensures pre x post' fail') :
    Ensures pre x (fun a s => post a s ∧ post' a s) fun err s => fail err s ∧ fail' err s := by
  intro s hs
  have first := h s hs
  have second := h' s hs
  cases hx : x s with
  | ok a t => exact ⟨by simpa only [hx] using first, by simpa only [hx] using second⟩
  | error err t => exact ⟨by simpa only [hx] using first, by simpa only [hx] using second⟩

theorem sure (h : Ensures pre x post fun _ _ => False) : Ensures pre x post fail :=
  h.weaken_fail fun _ _ herr => herr.elim

theorem start {s : σ} (h : Ensures pre x post fail) (hs : pre s)
    (hpost : ∀ a s, post a s → post' a s) (hfail : ∀ err s, fail err s → fail' err s) :
    Ensures (· = s) x post' fail' :=
  h.weaken (fun _ ht => ht ▸ hs) hpost hfail

theorem pure {a : α} (h : ∀ s, pre s → post a s) : Ensures pre (pure a) post fail := h

theorem throw {err : ε} (h : ∀ s, pre s → fail err s) :
    Ensures pre (throw err : EStateM ε σ α) post fail := h

theorem bind {f : α → EStateM ε σ β} {last : β → σ → Prop} (hx : Ensures pre x m fail)
    (hf : ∀ a, Ensures (m a) (f a) last fail) : Ensures pre (x >>= f) last fail := by
  intro s hs
  have first := hx s hs
  change match EStateM.bind x f s with
    | .ok b t => last b t
    | .error err t => fail err t
  unfold EStateM.bind
  cases hxs : x s with
  | ok a t => exact hf a t (by simpa only [hxs] using first)
  | error err t => simpa only [hxs] using first

theorem bind_get {f : σ → EStateM ε σ β} {last : β → σ → Prop}
    (h : ∀ s, pre s → Ensures (· = s) (f s) last fail) : Ensures pre (get >>= f) last fail :=
  fun s hs => h s hs s rfl

theorem bind_get_self {s : σ} {f : σ → EStateM ε σ β} {last : β → σ → Prop}
    (h : Ensures (· = s) (f s) last fail) : Ensures (· = s) (get >>= f) last fail :=
  bind_get fun t ht => by rwa [ht]

theorem modify {f : σ → σ} {post : PUnit → σ → Prop} (h : ∀ s, pre s → post ⟨⟩ (f s)) :
    Ensures pre (modify f : EStateM ε σ PUnit) post fail := h

theorem ofExcept {r : Except ε α} (hok : ∀ a, r = .ok a → ∀ s, pre s → post a s)
    (herr : ∀ err, r = .error err → ∀ s, pre s → fail err s) :
    Ensures pre (ofExcept r) post fail := by
  cases r with
  | ok a => exact hok a rfl
  | error err => exact herr err rfl

theorem outcome {s : σ} (h : Ensures pre x post fail) (hs : pre s) :
    (∃ a t, x s = .ok a t ∧ post a t) ∨ ∃ err t, x s = .error err t ∧ fail err t := by
  have := h s hs
  cases hx : x s with
  | ok a t => exact .inl ⟨a, t, rfl, by simpa only [hx] using this⟩
  | error err t => exact .inr ⟨err, t, rfl, by simpa only [hx] using this⟩

theorem of_ok {s t : σ} {a : α} (h : Ensures pre x post fail) (hs : pre s) (hx : x s = .ok a t) :
    post a t := by
  have := h s hs
  rwa [hx] at this

theorem of_error {s t : σ} {err : ε} (h : Ensures pre x post fail) (hs : pre s)
    (hx : x s = .error err t) :
    fail err t := by
  have := h s hs
  rwa [hx] at this

theorem of_runs {s : σ} (hok : ∀ a t, x s = .ok a t → post a t)
    (herr : ∀ err t, x s = .error err t → fail err t) : Ensures (· = s) x post fail := by
  rintro t rfl
  cases hx : x t with
  | ok a u => exact hok a u hx
  | error err u => exact herr err u hx

theorem exists_ok_iff {r : Except ε α} {s : σ} {a : α}
    (h : Ensures pre x (fun a _ => r = .ok a) fun err _ => r = .error err) (hs : pre s) :
    (∃ t, x s = .ok a t) ↔ r = .ok a := by
  obtain ⟨a', t, run, rfl⟩ | ⟨err, t, run, rfl⟩ := h.outcome hs
  · simp [run]
  · simp [run]

theorem exists_error_iff {r : Except ε α} {s : σ} {err : ε}
    (h : Ensures pre x (fun a _ => r = .ok a) fun err _ => r = .error err) (hs : pre s) :
    (∃ t, x s = .error err t) ↔ r = .error err := by
  obtain ⟨a, t, run, rfl⟩ | ⟨err', t, run, rfl⟩ := h.outcome hs
  · simp [run]
  · simp [run]

end Ensures

theorem get_bind_apply (f : σ → EStateM ε σ β) (s : σ) : (get >>= f) s = f s s := rfl

theorem bind_apply_of_ok {x : EStateM ε σ α} {f : α → EStateM ε σ β} {s t : σ} {a : α}
    (h : x s = .ok a t) : (x >>= f) s = f a t := by
  change EStateM.bind x f s = f a t
  unfold EStateM.bind
  rw [h]

theorem bind_apply_of_error {x : EStateM ε σ α} {f : α → EStateM ε σ β} {s t : σ} {err : ε}
    (h : x s = .error err t) : (x >>= f) s = .error err t := by
  change EStateM.bind x f s = .error err t
  unfold EStateM.bind
  rw [h]

theorem ofExcept_apply_eq_ok_iff {r : Except ε α} {s t : σ} {a : α} :
    (ofExcept r : EStateM ε σ α) s = .ok a t ↔ r = .ok a ∧ s = t := by
  cases r with
  | error err => exact iff_of_false nofun nofun
  | ok b =>
    exact (EStateM.Result.ok.injEq ..).to_iff.trans
      (and_congr_left' (Except.ok.injEq ..).to_iff.symm)

theorem ofExcept_apply_eq_error_iff {r : Except ε α} {s t : σ} {err : ε} :
    (ofExcept r : EStateM ε σ α) s = .error err t ↔ r = .error err ∧ s = t := by
  cases r with
  | error err' =>
    exact (EStateM.Result.error.injEq ..).to_iff.trans
      (and_congr_left' (Except.error.injEq ..).to_iff.symm)
  | ok b => exact iff_of_false nofun nofun

def answer? : EStateM.Result ε σ α → Option α
  | .ok a _ => some a
  | .error _ _ => none

theorem eq_ok_of_answer? {r : EStateM.Result ε σ α} {a : α} (h : answer? r = some a) :
    ∃ s, r = .ok a s := by
  cases r with
  | ok a' s =>
    cases h
    exact ⟨s, rfl⟩
  | error err s => cases h

/-- From the states with the invariant `inv`, the computation has the outcome `r` and keeps
`inv`. -/
def Computes (inv : σ → Prop) (x : EStateM ε σ α) (r : Except ε α) : Prop :=
  Ensures inv x (fun a s => r = .ok a ∧ inv s) fun err s => r = .error err ∧ inv s

namespace Computes

variable {inv : σ → Prop} {x : EStateM ε σ α} {r : Except ε α}

theorem pure {a : α} : Computes (ε := ε) inv (pure a) (.ok a) := fun _ hs => ⟨rfl, hs⟩

theorem throw {err : ε} : Computes (α := α) inv (throw err) (.error err) := fun _ hs => ⟨rfl, hs⟩

theorem ofExcept : Computes inv (ofExcept r) r :=
  Ensures.ofExcept (fun _ h _ hs => ⟨h, hs⟩) fun _ h _ hs => ⟨h, hs⟩

theorem bind {f : α → EStateM ε σ β} {k : α → Except ε β} (hx : Computes inv x r)
    (hf : ∀ a, r = .ok a → Computes inv (f a) (k a)) : Computes inv (x >>= f) (r >>= k) := by
  intro s hs
  have first := hx s hs
  change match EStateM.bind x f s with
    | .ok b t => (r >>= k) = .ok b ∧ inv t
    | .error err t => (r >>= k) = .error err ∧ inv t
  unfold EStateM.bind
  cases hxs : x s with
  | ok a t =>
    obtain ⟨hr, ht⟩ : r = .ok a ∧ inv t := by simpa only [hxs] using first
    rw [hr]
    exact hf a hr t ht
  | error err t =>
    obtain ⟨hr, ht⟩ : r = .error err ∧ inv t := by simpa only [hxs] using first
    rw [hr]
    exact ⟨rfl, ht⟩

end Computes

def Remembered (right : NodeId → α → Prop) (answers : Answers α) : Prop :=
  ∀ e a, answers[e]? = some a → right e a

theorem remembered_empty {right : NodeId → α → Prop} : Remembered right ∅ := by
  intro e a h
  simp at h

theorem Remembered.imp {right right' : NodeId → α → Prop} {answers : Answers α}
    (h : Remembered right answers) (hr : ∀ e a, answers[e]? = some a → right e a → right' e a) :
    Remembered right' answers :=
  fun e a ha => hr e a ha (h e a ha)

theorem Remembered.insert {right : NodeId → α → Prop} {answers : Answers α} {e : NodeId} {a : α}
    (h : Remembered right answers) (ha : right e a) : Remembered right (answers.insert e a) := by
  intro e' a' h'
  rw [Std.TreeMap.getElem?_insert] at h'
  split at h'
  · next heq =>
    cases h'
    rwa [← Std.compare_eq_iff_eq.1 heq]
  · exact h e' a' h'

/-- An answer that is right is as right when it is remembered. -/
theorem Ensures.remember {right : NodeId → α → Prop} {e : NodeId} {answer : EStateM ε (Answers α) α}
    {fail : ε → Answers α → Prop}
    (h : Ensures (Remembered right) answer (fun a s => right e a ∧ Remembered right s) fail) :
    Ensures (Remembered right) (remember e answer) (fun a s => right e a ∧ Remembered right s)
      fail := by
  unfold BitvectorCode.remember
  apply Ensures.bind_get
  intro known hknown
  cases hk : known[e]? with
  | some a =>
    rintro s rfl
    exact ⟨hknown e a hk, hknown⟩
  | none =>
    refine Ensures.bind (h.weaken (fun s hs => hs ▸ hknown) (fun a s hs => hs) fun err s hs => hs)
      fun a => ?_
    rintro s ⟨ha, hs⟩
    exact ⟨ha, hs.insert ha⟩

theorem Ensures.remember_empty {e : NodeId} {answer : EStateM ε (Answers α) α} {post : α → Prop}
    {fail : ε → Answers α → Prop} (h : Ensures (· = ∅) answer (fun a _ => post a) fail) :
    Ensures (· = ∅) (BitvectorCode.remember e answer) (fun a _ => post a) fail := by
  unfold BitvectorCode.remember
  apply Ensures.bind_get
  rintro _ rfl
  have none : (∅ : Answers α)[e]? = none := by simp
  rw [none]
  exact h.bind fun a _ ha => ha

/-- From the states with the invariant `inv`, a computation that cannot fail returns `a` and keeps
`inv`. -/
def Returns (inv : σ → Prop) (x : StateM σ α) (a : α) : Prop :=
  ∀ s, inv s → (x s).1 = a ∧ inv (x s).2

namespace Returns

variable {inv : σ → Prop} {x : StateM σ α} {a : α}

theorem pure : Returns inv (Pure.pure a) a := fun _ hs => ⟨rfl, hs⟩

theorem bind {f : α → StateM σ β} {b : β} (hx : Returns inv x a) (hf : Returns inv (f a) b) :
    Returns inv (x >>= f) b := by
  intro s hs
  obtain ⟨rfl, hs'⟩ := hx s hs
  exact hf (x s).2 hs'

theorem bind_get {f : σ → StateM σ α} (h : ∀ s, inv s → (f s s).1 = a ∧ inv (f s s).2) :
    Returns inv (get >>= f) a := h

theorem remember {right : NodeId → α} {e : NodeId} {answer : StateM (Answers α) α}
    (h : Returns (Remembered fun e a => a = right e) answer (right e)) :
    Returns (Remembered fun e a => a = right e) (remember e answer) (right e) := by
  apply bind_get
  intro known hknown
  cases hk : known[e]? with
  | some a => exact ⟨hknown e a hk, hknown⟩
  | none =>
    obtain ⟨ha, hs⟩ := h known hknown
    exact ⟨ha, hs.insert ha⟩

end Returns

end BitvectorCode
