import BitvectorCode.Proofs.Graph.Reachability
import BitvectorCode.Proofs.Rewrite.Trees

/-!
# Replacing reads

Renaming and mirroring replace the reads of a tree and nothing else, each read once and the reads in
its index before it. One such replacement after another is a single one, so a chain of passes can be
told in one step.
-/

namespace BitvectorCode.Tree

/-- Replaces every read, the reads in its index first: `f` says what stands for a read of a root at
an index. -/
def mapReads (f : Root → Tree → Tree) : Tree → Tree
  | constant c => constant c
  | read root index => f root (index.mapReads f)
  | concat high low => concat (high.mapReads f) (low.mapReads f)
  | extract inner offset width => extract (inner.mapReads f) offset width
  | zeroExtend inner width => zeroExtend (inner.mapReads f) width
  | signExtend inner width => signExtend (inner.mapReads f) width
  | not inner => not (inner.mapReads f)
  | binary op lhs rhs => binary op (lhs.mapReads f) (rhs.mapReads f)
  | compare op lhs rhs => compare op (lhs.mapReads f) (rhs.mapReads f)
  | select cond ifTrue ifFalse =>
    select (cond.mapReads f) (ifTrue.mapReads f) (ifFalse.mapReads f)

def mapRoots (f : Root → Root) : Tree → Tree := mapReads fun root index => read (f root) index

def atRead (f : Root → Tree → Tree) : Tree → Tree
  | read root index => f root index
  | t => t

attribute [local simp] mapReads

variable {f h k : Root → Tree → Tree}

theorem rewriteUp_atRead (t : Tree) :
    t.rewriteUp (fun t => .ok (t.atRead f)) = .ok (t.mapReads f) := by
  induction t with
  | constant c => rfl
  | read root index ih | extract inner offset width ih | zeroExtend inner width ih
  | signExtend inner width ih | not inner ih =>
    rw [rewriteUp, ih]
    rfl
  | concat lhs rhs ihl ihr | binary op lhs rhs ihl ihr | compare op lhs rhs ihl ihr =>
    rw [rewriteUp, ihl, ihr]
    rfl
  | select cond ifTrue ifFalse ihc iht ihf =>
    rw [rewriteUp, ihc, iht, ihf]
    rfl

theorem mapReads_mapReads (hk : ∀ root index, (f root index).mapReads h = k root (index.mapReads h))
    (t : Tree) : (t.mapReads f).mapReads h = t.mapReads k := by
  induction t with
  | constant c => rfl
  | read root index ih => simp only [mapReads, hk, ih]
  | extract inner offset width ih | zeroExtend inner width ih | signExtend inner width ih
  | not inner ih => simp only [mapReads, ih]
  | concat lhs rhs ihl ihr | binary op lhs rhs ihl ihr | compare op lhs rhs ihl ihr =>
    simp only [mapReads, ihl, ihr]
  | select cond ifTrue ifFalse ihc iht ihf => simp only [mapReads, ihc, iht, ihf]

theorem mapReads_read (t : Tree) : t.mapReads read = t := by
  induction t with
  | constant c => rfl
  | read root index ih | extract inner offset width ih | zeroExtend inner width ih
  | signExtend inner width ih | not inner ih => rw [mapReads, ih]
  | concat lhs rhs ihl ihr | binary op lhs rhs ihl ihr | compare op lhs rhs ihl ihr =>
    rw [mapReads, ihl, ihr]
  | select cond ifTrue ifFalse ihc iht ihf => rw [mapReads, ihc, iht, ihf]

theorem mapReads_eq_constant_iff {t : Tree} {c : Constant}
    (hf : ∀ root index, f root index ≠ constant c) :
    t.mapReads f = constant c ↔ t = constant c := by
  cases t <;> simp [hf]

theorem mapReads_congr {q : Root → Tree → Prop}
    (hq : ∀ root index, ¬ q root index → f root (index.mapReads h) = h root (index.mapReads h))
    {t : Tree} (ht : ¬ t.AnyRead q) : t.mapReads f = t.mapReads h := by
  induction t with
  | constant c => rfl
  | read root index ih =>
    obtain ⟨hread, hindex⟩ := not_or.1 ht
    simp only [mapReads, ih hindex, hq root index hread]
  | extract inner offset width ih | zeroExtend inner width ih | signExtend inner width ih
  | not inner ih => simp only [mapReads, ih ht]
  | concat lhs rhs ihl ihr | binary op lhs rhs ihl ihr | compare op lhs rhs ihl ihr =>
    obtain ⟨hl, hr⟩ := not_or.1 ht
    simp only [mapReads, ihl hl, ihr hr]
  | select cond ifTrue ifFalse ihc iht ihf =>
    obtain ⟨hc, hrest⟩ := not_or.1 ht
    obtain ⟨ht, hf⟩ := not_or.1 hrest
    simp only [mapReads, ihc hc, iht ht, ihf hf]

theorem anyRead_mapRoots_iff {f : Root → Root} {p : Root → Tree → Prop} {t : Tree} :
    (t.mapRoots f).AnyRead p ↔ t.AnyRead fun root index => p (f root) (index.mapRoots f) := by
  induction t with
  | constant c => rfl
  | read root index ih => exact or_congr_right ih
  | extract inner offset width ih | zeroExtend inner width ih | signExtend inner width ih
  | not inner ih => exact ih
  | concat lhs rhs ihl ihr | binary op lhs rhs ihl ihr | compare op lhs rhs ihl ihr =>
    exact or_congr ihl ihr
  | select cond ifTrue ifFalse ihc iht ihf => exact or_congr ihc (or_congr iht ihf)

theorem anyRead_congr {p p' q : Root → Tree → Prop}
    (hq : ∀ root index, ¬ q root index → (p root index ↔ p' root index))
    {t : Tree} (ht : ¬ t.AnyRead q) :
    t.AnyRead p ↔ t.AnyRead p' := by
  induction t with
  | constant c => rfl
  | read root index ih =>
    obtain ⟨hread, hindex⟩ := not_or.1 ht
    exact or_congr (hq root index hread) (ih hindex)
  | extract inner offset width ih | zeroExtend inner width ih | signExtend inner width ih
  | not inner ih => exact ih ht
  | concat lhs rhs ihl ihr | binary op lhs rhs ihl ihr | compare op lhs rhs ihl ihr =>
    obtain ⟨hl, hr⟩ := not_or.1 ht
    exact or_congr (ihl hl) (ihr hr)
  | select cond ifTrue ifFalse ihc iht ihf =>
    obtain ⟨hc, hrest⟩ := not_or.1 ht
    obtain ⟨ht, hf⟩ := not_or.1 hrest
    exact or_congr (ihc hc) (or_congr (iht ht) (ihf hf))

end BitvectorCode.Tree
