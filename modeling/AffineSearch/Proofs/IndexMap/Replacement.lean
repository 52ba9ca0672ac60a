import AffineSearch.Proofs.Expr.Substitution
import AffineSearch.Proofs.IndexMap.Specialize

/-! Variables that are replaced by a constant before they are projected out. The projection finds none of them
left to set to 0, so it only renumbers, and where the constant is 0 it would have done the same alone. -/
namespace AffineSearch.IndexMap

variable {m : IndexMap} {new : Expr} {d s : Nat}

theorem mentionsDim_replace (m : IndexMap) (hnew : new.mentionsDim d = false) :
    (m.replace (.dim d) new).mentionsDim d = false := by
  simp only [mentionsDim, replace, List.any_map, List.any_eq_false, Function.comp_apply,
    Expr.mentionsDim_replace_dim hnew]
  exact fun _ _ => Bool.false_ne_true

theorem mentionsSymbol_replace (m : IndexMap) (hnew : new.mentionsSymbol s = false) :
    (m.replace (.symbol s) new).mentionsSymbol s = false := by
  simp only [mentionsSymbol, replace, List.any_map, List.any_eq_false, Function.comp_apply,
    Expr.mentionsSymbol_replace_symbol hnew]
  exact fun _ _ => Bool.false_ne_true

theorem projectDims_replace_eq_map_lowerDims (h : m.InScope) (hd : d < m.numDims) (c : Int64) :
    (m.replace (.dim d) (.const c)).projectDims [d] =
      ⟨m.numDims - 1, m.numSymbols, (m.replace (.dim d) (.const c)).results.map (·.lowerDims d)⟩ := by
  rw [projectDims_replace h hd, replace, List.map_map]
  congr 1
  apply List.map_congr_left
  intro e _
  exact e.substitute_held_dim d c

theorem projectSymbols_replace_eq_map_lowerSymbols (h : m.InScope) (hs : s < m.numSymbols) (c : Int64) :
    (m.replace (.symbol s) (.const c)).projectSymbols [s] =
      ⟨m.numDims, m.numSymbols - 1, (m.replace (.symbol s) (.const c)).results.map (·.lowerSymbols s)⟩ := by
  rw [projectSymbols_replace h hs, replace, List.map_map]
  congr 1
  apply List.map_congr_left
  intro e _
  exact e.substitute_held_symbol s c

/-- A projection of one dimension reads the results where it is 0. -/
theorem projectDims_singleton (h : m.InScope) (hd : d < m.numDims) :
    m.projectDims [d] =
      ⟨m.numDims - 1, m.numSymbols, m.results.map (·.substitute (Expr.held .dim d 0) .symbol)⟩ := by
  rw [projectDims, countBelow_singleton_of_lt hd]
  congr 1
  apply List.map_congr_left
  intro e he
  apply Expr.substitute_congr
  apply (inScope_iff.mp h e he).mono
  · exact fun p hp => Expr.projected_singleton_eq_held hp
  · exact fun p _ => rfl

theorem projectSymbols_singleton (h : m.InScope) (hs : s < m.numSymbols) :
    m.projectSymbols [s] =
      ⟨m.numDims, m.numSymbols - 1, m.results.map (·.substitute .dim (Expr.held .symbol s 0))⟩ := by
  rw [projectSymbols, countBelow_singleton_of_lt hs]
  congr 1
  apply List.map_congr_left
  intro e he
  apply Expr.substitute_congr
  apply (inScope_iff.mp h e he).mono
  · exact fun p _ => rfl
  · exact fun p hp => Expr.projected_singleton_eq_held hp

/-- A variable that was replaced by a constant does not occur any more, and to project it out only closes the gap
in the numbers of the others. Where the constant is 0, the projection by itself has the same outcome. A symbol that
is dropped counts as 1 in all results. -/
theorem projections_keep_replacements (h : m.InScope) :
    (∀ d < m.numDims,
      (∀ c, (m.replace (.dim d) (.const c)).mentionsDim d = false ∧
        (m.replace (.dim d) (.const c)).projectDims [d] =
          ⟨m.numDims - 1, m.numSymbols, (m.replace (.dim d) (.const c)).results.map (·.lowerDims d)⟩) ∧
      (m.replace (.dim d) (.const 0)).projectDims [d] = m.projectDims [d]) ∧
    ∀ s < m.numSymbols,
      (∀ c, (m.replace (.symbol s) (.const c)).mentionsSymbol s = false ∧
        (m.replace (.symbol s) (.const c)).projectSymbols [s] =
          ⟨m.numDims, m.numSymbols - 1, (m.replace (.symbol s) (.const c)).results.map (·.lowerSymbols s)⟩) ∧
      (m.replace (.symbol s) (.const 0)).projectSymbols [s] = m.projectSymbols [s] ∧
      m.eliminateSymbol? s = m.specialize? m.numDims (m.numSymbols - 1) .dim (Expr.held .symbol s 1) := by
  constructor
  · intro d hd
    refine ⟨fun c => ⟨m.mentionsDim_replace rfl, projectDims_replace_eq_map_lowerDims h hd c⟩, ?_⟩
    rw [projectDims_replace h hd, projectDims_singleton h hd]
  · intro s hs
    refine ⟨fun c => ⟨m.mentionsSymbol_replace rfl, projectSymbols_replace_eq_map_lowerSymbols h hs c⟩, ?_,
      eliminateSymbol?_eq_specialize? h hs⟩
    rw [projectSymbols_replace h hs, projectSymbols_singleton h hs]

/-- A 1 behind the largest word stays, and a 0 there vanishes. The product is swapped on the way. It folds to twice
the dimension where its symbol is dropped, and to 0 where the symbol is only projected out. -/
theorem projections_keep_replacements_overflow :
    let largest : Expr := .const 0x7fffffffffffffff
    let scaled : Expr := .binary .mul (.dim 0) (.symbol 0)
    let m : IndexMap := ⟨3, 1,
      [.binary .add (.binary .add (.dim 2) largest) (.dim 1), .binary .mul (.const 2) scaled]⟩
    let doubled : Expr := .binary .mul scaled (.const 2)
    (m.InScope ∧ 1 < m.numDims ∧ 0 < m.numSymbols) ∧
    ((m.replace (.dim 1) (.const 1)).mentionsDim 1 = false ∧
      (m.replace (.dim 1) (.const 1)).projectDims [1] =
        ⟨2, 1, [.binary .add (.binary .add (.dim 1) largest) (.const 1), doubled]⟩) ∧
    ((m.replace (.dim 1) (.const 0)).projectDims [1] = m.projectDims [1] ∧
      m.projectDims [1] = ⟨2, 1, [.binary .add (.dim 1) largest, doubled]⟩) ∧
    m.eliminateSymbol? 0 = some ⟨3, 0, [m.results[0], .binary .mul (.dim 0) (.const 2)]⟩ ∧
    m.projectSymbols [0] = ⟨3, 0, [m.results[0], .const 0]⟩ := by
  intro largest scaled m doubled
  have hscope : m.InScope := by decide
  have hd : 1 < m.numDims := by decide
  have hs : 0 < m.numSymbols := by decide
  obtain ⟨hdims, hsymbols⟩ := projections_keep_replacements hscope
  obtain ⟨hreplaced, hzero⟩ := hdims 1 hd
  obtain ⟨hgone, hrenumbered⟩ := hreplaced 1
  have hdropped := (hsymbols 0 hs).2.2
  exact ⟨⟨hscope, hd, hs⟩, ⟨hgone, hrenumbered.trans (by decide)⟩, ⟨hzero, by decide⟩,
    hdropped.trans (by decide), by decide⟩

end AffineSearch.IndexMap
