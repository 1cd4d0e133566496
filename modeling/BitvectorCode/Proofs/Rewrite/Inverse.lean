import BitvectorCode.Proofs.Analysis.Symbols
import BitvectorCode.Proofs.Graph.Structure
import BitvectorCode.Proofs.Rewrite.Rename

/-!
# Undoing a renaming

A table of new names can be turned around when no two names of an expression get the same new one
and no new name is one that the expression keeps. Renaming there and back is then a single
replacement of roots, and at every root that is read it replaces the root by itself.
-/

namespace BitvectorCode

open BitvectorCode.Graph

namespace Translations

variable {translations : Translations} {names : Std.TreeSet String} {old new : String}

def inverse (translations : Translations) (names : Std.TreeSet String) : Translations :=
  .ofList (names.toList.filterMap fun old => translations[old]?.map (·, old))

def InjectiveOn (translations : Translations) (names : Std.TreeSet String) : Prop :=
  ∀ a ∈ names, ∀ b ∈ names, ∀ new, translations[a]? = some new → translations[b]? = some new → a = b

/-- A new name of one of the names is none of those that stay. -/
def Avoids (translations : Translations) (names : Std.TreeSet String) : Prop :=
  ∀ a ∈ names, ∀ new, translations[a]? = some new → new ∈ names → new ∈ translations

instance : Decidable (translations.InjectiveOn names) :=
  decidable_of_iff (∀ a ∈ names.toList, ∀ b ∈ names.toList, ∀ new ∈ translations[a]?,
      translations[b]? = some new → a = b) <| by
    simp only [InjectiveOn, Std.TreeSet.mem_toList, Option.mem_def]

instance : Decidable (translations.Avoids names) :=
  decidable_of_iff
    (∀ a ∈ names.toList, ∀ new ∈ translations[a]?, new ∈ names → new ∈ translations) <| by
    simp only [Avoids, Std.TreeSet.mem_toList, Option.mem_def]

theorem mem_pairs_iff : (new, old) ∈ names.toList.filterMap
    (fun old => translations[old]?.map (·, old)) ↔
    old ∈ names ∧ translations[old]? = some new := by
  simp [List.mem_filterMap, Std.TreeSet.mem_toList]

theorem getElem?_inverse (h : translations.InjectiveOn names) (hold : old ∈ names)
    (hnew : translations[old]? = some new) : (translations.inverse names)[new]? = some old := by
  refine Std.TreeMap.getElem?_ofList_of_mem (Std.compare_eq_iff_eq.2 rfl) ?_
    (mem_pairs_iff.2 ⟨hold, hnew⟩)
  have distinct : names.toList.Pairwise fun a b => ∀ p, translations[a]?.map (·, a) = some p →
      ∀ q, translations[b]?.map (·, b) = some q → ¬ compare p.1 q.1 = .eq := by
    refine Std.TreeSet.distinct_toList.imp_of_mem fun {a b} ha hb hab => ?_
    rintro _ hp _ hq heq
    obtain ⟨new, hnewa, rfl⟩ := Option.map_eq_some_iff.1 hp
    obtain ⟨new', hnewb, rfl⟩ := Option.map_eq_some_iff.1 hq
    cases Std.compare_eq_iff_eq.1 heq
    have same := h a (Std.TreeSet.mem_toList.1 ha) b (Std.TreeSet.mem_toList.1 hb) new hnewa hnewb
    exact hab (Std.compare_eq_iff_eq.2 same)
  exact List.pairwise_filterMap.2 distinct

theorem exists_of_mem_inverse (h : new ∈ translations.inverse names) :
    ∃ old ∈ names, translations[old]? = some new := by
  rw [inverse, Std.TreeMap.mem_ofList, List.contains_iff_mem, List.mem_map] at h
  obtain ⟨⟨_, old⟩, hmem, rfl⟩ := h
  exact ⟨old, mem_pairs_iff.1 hmem⟩

end Translations

theorem Root.translated_inverse {translations : Translations} {names : Std.TreeSet String}
    (inj : translations.InjectiveOn names) (apart : translations.Avoids names) {root : Root}
    (h : root.name ∈ names) :
    (root.translated translations).translated (translations.inverse names) = root := by
  cases hname : translations[root.name]? with
  | some new =>
    have renamed : root.translated translations = root.renamed new := by
      simp only [translated, hname]
    have back : (translations.inverse names)[(root.renamed new).name]? = some root.name :=
      Translations.getElem?_inverse inj h hname
    rw [renamed]
    simp only [translated, back]
    rfl
  | none =>
    have kept : root.translated translations = root := by simp only [translated, hname]
    have absent : root.name ∉ translations.inverse names := fun hmem => by
      obtain ⟨old, hold, hnew⟩ := Translations.exists_of_mem_inverse hmem
      have hmem := apart old hold root.name hnew h
      rw [Std.TreeMap.mem_iff_isSome_getElem?, hname] at hmem
      cases hmem
    rw [kept]
    simp only [translated, Std.TreeMap.getElem?_eq_none absent]

namespace Tree

variable {f f' : Root → Root} {t : Tree}

theorem mapRoots_mapRoots (t : Tree) : (t.mapRoots f).mapRoots f' = t.mapRoots (f' ∘ f) :=
  mapReads_mapReads (k := fun root index => read (f' (f root)) index) (fun _ _ => rfl) t

theorem mapRoots_eq_self (h : ¬ t.AnyRead fun root _ => f root ≠ root) : t.mapRoots f = t :=
  (mapReads_congr (fun root _ hroot => by rw [not_not.1 hroot]) h).trans (mapReads_read t)

end Tree

/-- A table that is turned around undoes a renaming of the tree. -/
theorem Graph.WellFormed.mapRoots_inverse {g : Graph} {e : NodeId} (wf : g.WellFormed)
    (he : e < g.size) {translations : Translations} (inj : translations.InjectiveOn (g.symbols e))
    (apart : translations.Avoids (g.symbols e)) :
    ((g.tree e).mapRoots (Root.translated translations)).mapRoots
      (Root.translated (translations.inverse (g.symbols e))) = g.tree e := by
  rw [Tree.mapRoots_mapRoots]
  refine Tree.mapRoots_eq_self fun hread => ?_
  obtain ⟨n, hn, root, index, hx, hne⟩ := (wf.anyRead_tree_iff he).1 hread
  refine hne (Root.translated_inverse inj apart ((wf.mem_symbols_iff he).2 ?_))
  exact (wf.anyRead_tree_iff he).2 ⟨n, hn, root, index, hx, rfl⟩

namespace Renaming

variable {g : Graph} {e : NodeId}

/-- Renaming can be undone. When no two names of an expression get the same new one, and no name of
the expression gets one that the expression keeps, renaming with the table and then with the table
turned around gives an expression of the same structure, and all nodes that there were are where
they were. Neither renamer has to be a fresh one. -/
theorem rename_rename_inverse (wf : g.WellFormed) (he : e < g.size) (renamer back : Renamer)
    (inj : renamer.translations.InjectiveOn (g.symbols e))
    (apart : renamer.translations.Avoids (g.symbols e))
    (hback : back.translations = renamer.translations.inverse (g.symbols e)) :
    ∃ r s, rename e ⟨g, renamer⟩ = .ok r s ∧
      ∃ r' t, rename r ⟨s.graph, back⟩ = .ok r' t ∧ g.Grows t.graph ∧
        t.graph.sameStructure r' e = true := by
  obtain ⟨r, s, there, grown, hr, renamed⟩ := rename_tree wf he renamer
  obtain ⟨r', t, backwards, more, hr', restored⟩ := rename_tree grown.wellFormed hr back
  refine ⟨r, s, there, r', t, backwards, grown.trans more, ?_⟩
  have later := grown.trans more
  rw [more.wellFormed.sameStructure_iff hr' (later.lt_size he), restored, renamed, hback,
    wf.mapRoots_inverse he inj apart, later.tree_eq wf he]

/-- Three names are moved round, one of them of a root with known contents that is read at a byte of
another root, and a fourth name stays. Moving them back gives the structure there was. -/
theorem rename_rename_inverse_of_cycle :
    let g : Graph :=
      { nodes := #[⟨.constant ⟨1, 32⟩, 32⟩, ⟨.read 0 0, 8⟩, ⟨.read 1 1, 8⟩, ⟨.read 2 2, 8⟩,
          ⟨.read 3 0, 8⟩, ⟨.concat 3 1, 16⟩, ⟨.concat 4 1, 16⟩, ⟨.binary .xor 5 6, 16⟩]
        roots := #[.symbolic "a" 8, .known "b" [1, 2], .symbolic "c" 4, .symbolic "d" 8] }
    let round : Renamer :=
      .ofTranslations (.ofList [("a", "b"), ("b", "c"), ("c", "a"), ("x", "d")])
    let back : Renamer := .ofTranslations (round.translations.inverse (g.symbols 7))
    g.WellFormed ∧ 7 < g.size ∧ round.translations.InjectiveOn (g.symbols 7) ∧
      round.translations.Avoids (g.symbols 7) ∧
      ∃ r s, rename 7 ⟨g, round⟩ = .ok r s ∧ r ≠ 7 ∧
        ∃ r' t, rename r ⟨s.graph, back⟩ = .ok r' t ∧ g.Grows t.graph ∧
          t.graph.sameStructure r' 7 = true := by
  intro g round back
  have wf : g.WellFormed := by decide +kernel
  have lt : 7 < g.size := by decide
  have inj : round.translations.InjectiveOn (g.symbols 7) := by decide +kernel
  have apart : round.translations.Avoids (g.symbols 7) := by decide +kernel
  have moved : answer? (rename 7 ⟨g, round⟩) ≠ some 7 := by decide +kernel
  obtain ⟨r, s, there, undone⟩ := rename_rename_inverse wf lt round back inj apart rfl
  refine ⟨wf, lt, inj, apart, r, s, there, fun hr => moved ?_, undone⟩
  rw [there, hr]
  rfl

end Renaming

end BitvectorCode
