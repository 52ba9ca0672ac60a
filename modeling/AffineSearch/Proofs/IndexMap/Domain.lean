import AffineSearch.Proofs.Pattern.Invariant

/-! The domain that an operation on maps leaves. Its sizes are known and the results stay within it. What can
fail does so only where a result is missing or would not stay. -/
namespace AffineSearch.IndexMap

/-- A map over a domain of these sizes where the condition holds, and an error where it does not. -/
def OverIff (numDims numSymbols : Nat) (condition : Prop) : Except MapError IndexMap → Prop
  | .ok m => condition ∧ m.Over numDims numSymbols
  | .error _ => ¬condition

variable {m : IndexMap} {numDims numSymbols : Nat} {condition : Prop} {r : Except MapError IndexMap}

theorem overIff_of_toOption (hok : (∃ m, r.toOption = some m) ↔ condition)
    (hover : ∀ m, r.toOption = some m → m.Over numDims numSymbols) :
    OverIff numDims numSymbols condition r := by
  cases r with
  | ok m => exact ⟨hok.mp ⟨m, rfl⟩, hover m rfl⟩
  | error fault =>
    rw [OverIff, ← hok]
    rintro ⟨m, hm⟩
    cases hm

theorem overIff_ofResults (numDims numSymbols : Nat) (results : List Expr) :
    OverIff numDims numSymbols (∀ e ∈ results, e.InScope numDims numSymbols)
      (ofResults numDims numSymbols results) := by
  apply overIff_of_toOption
  · simp only [toOption_eq_some_iff, ofResults_eq_ok_iff, exists_eq_left]
    exact Iff.rfl
  · intro m hm
    obtain ⟨rfl, hscope⟩ := ofResults_eq_ok_iff.mp (toOption_eq_some_iff.mp hm)
    exact ⟨rfl, rfl, hscope⟩

namespace Over

theorem projectDims (h : m.Over numDims numSymbols) (positions : List Nat) : (m.projectDims positions).Over
    (numDims - (positions.toFinset.filter (· < numDims)).card) numSymbols := by
  obtain ⟨rfl, rfl, hscope⟩ := h
  rw [← countBelow_eq_card]
  exact ⟨rfl, rfl, inScope_projectDims hscope positions⟩

theorem projectSymbols (h : m.Over numDims numSymbols) (positions : List Nat) :
    (m.projectSymbols positions).Over numDims
      (numSymbols - (positions.toFinset.filter (· < numSymbols)).card) := by
  obtain ⟨rfl, rfl, hscope⟩ := h
  rw [← countBelow_eq_card]
  exact ⟨rfl, rfl, inScope_projectSymbols hscope positions⟩

theorem shiftDims (h : m.Over numDims numSymbols) {count : Nat} (hfits : numDims + count < 2 ^ 64) (offset : Nat) :
    (m.shiftDims count offset).Over (numDims + count) numSymbols := by
  obtain ⟨rfl, rfl, hscope⟩ := h
  rw [shiftDims_eq_makeRoom hscope hfits]
  exact ⟨rfl, rfl, inScope_makeRoom hscope count offset⟩

theorem replace (h : m.Over numDims numSymbols) {old new : Expr} (hnew : new.InScope numDims numSymbols) :
    (m.replace old new).Over numDims numSymbols := by
  obtain ⟨rfl, rfl, hscope⟩ := h
  exact ⟨rfl, rfl, inScope_replace hscope hnew⟩

theorem dropResults (h : m.Over numDims numSymbols) (positions : List Nat) :
    (m.dropResults positions).Over numDims numSymbols := by
  obtain ⟨rfl, rfl, hscope⟩ := h
  refine ⟨rfl, rfl, ?_⟩
  intro e he
  obtain ⟨⟨e, k⟩, hk, rfl⟩ := List.mem_map.mp he
  exact hscope e (List.fst_mem_of_mem_zipIdx (List.mem_of_mem_filter hk))

theorem overIff_insertResult (h : m.Over numDims numSymbols) (e : Expr) (position : Nat) :
    OverIff numDims numSymbols (position ≤ m.numResults ∧ e.InScope numDims numSymbols)
      (m.insertResult e position) := by
  obtain ⟨rfl, rfl, hscope⟩ := h
  apply overIff_of_toOption
  · simp only [insertResult_toOption_eq_some_iff, exists_and_left, exists_eq, and_true]
  · intro m' hm
    obtain ⟨hposition, he, rfl⟩ := insertResult_toOption_eq_some_iff.mp hm
    refine ⟨rfl, rfl, ?_⟩
    intro e' he'
    rcases (List.mem_insertIdx hposition).mp he' with rfl | hold
    · exact he
    · exact hscope e' hold

theorem overIff_swapResults (h : m.Over numDims numSymbols) (i j : Nat) :
    OverIff numDims numSymbols (i < m.numResults ∧ j < m.numResults) (m.swapResults i j) :=
  overIff_of_toOption exists_swapResults_iff fun _ hm => (h.swapResults hm).1

end Over

/-- Whatever is done to a map that stays in its domain, the outcome is an error or a map that stays in the new
domain. Only a shift must not lead to more dimensions than a word can count. A projection takes away as many
variables as its list has different positions of the domain, a shift adds its count, and all else leaves the domain
as it is. -/
theorem operations_stay_inScope :
    (∀ m : IndexMap, m.InScope →
      (∀ positions, (m.projectDims positions).Over
        (m.numDims - (positions.toFinset.filter (· < m.numDims)).card) m.numSymbols) ∧
      (∀ positions, (m.projectSymbols positions).Over m.numDims
        (m.numSymbols - (positions.toFinset.filter (· < m.numSymbols)).card)) ∧
      (∀ count offset, m.numDims + count < 2 ^ 64 →
        (m.shiftDims count offset).Over (m.numDims + count) m.numSymbols) ∧
      (∀ e position, OverIff m.numDims m.numSymbols
        (position ≤ m.numResults ∧ e.InScope m.numDims m.numSymbols) (m.insertResult e position)) ∧
      (∀ positions, (m.dropResults positions).Over m.numDims m.numSymbols) ∧
      (∀ i j, OverIff m.numDims m.numSymbols (i < m.numResults ∧ j < m.numResults) (m.swapResults i j)) ∧
      (∀ results, OverIff m.numDims m.numSymbols (∀ e ∈ results, e.InScope m.numDims m.numSymbols)
        (m.withResults results)) ∧
      ∀ old new, new.InScope m.numDims m.numSymbols → (m.replace old new).Over m.numDims m.numSymbols) ∧
    (∀ numDims numSymbols results, OverIff numDims numSymbols
      (∀ e ∈ results, e.InScope numDims numSymbols) (ofResults numDims numSymbols results)) ∧
    ∀ n, (identity n).Over n 0 := by
  refine ⟨?operations, overIff_ofResults, ?identity⟩
  case operations =>
    intro m hscope
    have h : m.Over m.numDims m.numSymbols := ⟨rfl, rfl, hscope⟩
    exact ⟨h.projectDims, h.projectSymbols, fun _ offset hfits => h.shiftDims hfits offset, h.overIff_insertResult,
      h.dropResults, h.overIff_swapResults, overIff_ofResults m.numDims m.numSymbols,
      fun _ _ hnew => h.replace hnew⟩
  case identity =>
    intro n
    refine ⟨rfl, rfl, ?_⟩
    intro e he
    obtain ⟨p, hp, rfl⟩ := List.mem_map.mp he
    exact List.mem_range.mp hp

/-- One position is named twice and one is none of the map. -/
theorem operations_stay_inScope_pooling :
    let m : IndexMap := ⟨3, 1, [.binary .add (.binary .mul (.dim 0) (.symbol 0)) (.dim 2), .dim 1]⟩
    let projected : IndexMap := ⟨1, 1, [.const 0, .dim 0]⟩
    let shifted : IndexMap := ⟨5, 1, [.binary .add (.binary .mul (.dim 0) (.symbol 0)) (.dim 4), .dim 3]⟩
    let inserted : IndexMap := ⟨3, 1, [m.results[0], .symbol 0, .dim 1]⟩
    m.InScope ∧ (Expr.symbol 0).InScope 3 1 ∧
      (m.projectDims [2, 0, 2, 7] = projected ∧ projected.Over 1 1) ∧
      (m.numDims + 2 < 2 ^ 64 ∧ m.shiftDims 2 1 = shifted ∧ shifted.Over 5 1) ∧
      (m.insertResult (.symbol 0) 1 = .ok inserted ∧ inserted.Over 3 1) ∧
      (m.replace (.dim 1) (.symbol 0)).Over 3 1 := by
  intro m projected shifted inserted
  have hscope : m.InScope := by decide
  have hnew : (Expr.symbol 0).InScope m.numDims m.numSymbols := by decide
  have hprojected : m.projectDims [2, 0, 2, 7] = projected := by decide
  have hfits : m.numDims + 2 < 2 ^ 64 := by decide
  have hshifted : m.shiftDims 2 1 = shifted := by decide
  have hinserted : m.insertResult (.symbol 0) 1 = .ok inserted := by rfl
  obtain ⟨hdims, -, hshift, hinsert, -, -, -, hreplace⟩ := operations_stay_inScope.1 m hscope
  have hover := hinsert (.symbol 0) 1
  rw [hinserted] at hover
  exact ⟨hscope, hnew, ⟨hprojected, hprojected ▸ hdims [2, 0, 2, 7]⟩,
    ⟨hfits, hshifted, hshifted ▸ hshift 2 1 hfits⟩, ⟨hinserted, hover.2⟩, hreplace (.dim 1) (.symbol 0) hnew⟩

/-- Two dimensions and the largest word are one dimension, and the second of the two is still there. -/
theorem shiftDims_leaves_scope :
    let m : IndexMap := ⟨2, 0, [.dim 1]⟩
    let shifted : IndexMap := ⟨1, 0, [.dim 1]⟩
    m.InScope ∧ m.shiftDims 0xffffffffffffffff 2 = shifted ∧ ¬shifted.InScope ∧
      shifted.numDims ≠ m.numDims + 0xffffffffffffffff := by
  decide

end AffineSearch.IndexMap
