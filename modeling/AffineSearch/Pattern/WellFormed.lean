import AffineSearch.Pattern.Basic

/-! Maps whose results stay within their domain, and patterns whose maps share one domain. -/
namespace AffineSearch

def Expr.InScope (numDims numSymbols : Nat) : Expr → Prop
  | dim p => p < numDims
  | symbol p => p < numSymbols
  | const _ => True
  | binary _ l r => l.InScope numDims numSymbols ∧ r.InScope numDims numSymbols

theorem Expr.outOfScope?_eq_none_iff {numDims numSymbols : Nat} {e : Expr} :
    e.outOfScope? numDims numSymbols = none ↔ e.InScope numDims numSymbols := by
  induction e with
  | dim p => simp [outOfScope?, InScope]
  | symbol p => simp [outOfScope?, InScope]
  | const c => simp [outOfScope?, InScope]
  | binary op l r hl hr => simp [outOfScope?, InScope, hl, hr]

instance (numDims numSymbols : Nat) (e : Expr) : Decidable (e.InScope numDims numSymbols) :=
  decidable_of_iff _ Expr.outOfScope?_eq_none_iff

def IndexMap.InScope (m : IndexMap) : Prop := ∀ e ∈ m.results, e.InScope m.numDims m.numSymbols

instance (m : IndexMap) : Decidable m.InScope :=
  inferInstanceAs (Decidable (∀ e ∈ m.results, e.InScope m.numDims m.numSymbols))

theorem IndexMap.ofResults_eq_ok_iff {numDims numSymbols : Nat} {results : List Expr} {m : IndexMap} :
    ofResults numDims numSymbols results = .ok m ↔ m = ⟨numDims, numSymbols, results⟩ ∧ m.InScope := by
  unfold ofResults
  split
  · next fault h =>
    obtain ⟨e, he, hf⟩ := List.exists_of_findSome?_eq_some h
    simp only [reduceCtorEq, false_iff, not_and]
    rintro rfl hm
    have := Expr.outOfScope?_eq_none_iff.2 (hm e he)
    simp [hf] at this
  · next h =>
    simp only [Except.ok.injEq, eq_comm (b := m), iff_self_and]
    rintro rfl e he
    exact Expr.outOfScope?_eq_none_iff.1 (List.findSome?_eq_none_iff.1 h e he)

/-- The maps exist, stay in scope and share the pattern's dimensions and symbols. -/
structure Pattern.WellFormed (p : Pattern) : Prop where
  maps_ne_nil : p.maps ≠ []
  numDims_eq : ∀ m ∈ p.maps, m.numDims = p.numDims
  numSymbols_eq : ∀ m ∈ p.maps, m.numSymbols = p.numSymbols
  inScope : ∀ m ∈ p.maps, m.InScope

instance (p : Pattern) : Decidable p.WellFormed :=
  decidable_of_iff (p.maps ≠ [] ∧ (∀ m ∈ p.maps, m.numDims = p.numDims) ∧
      (∀ m ∈ p.maps, m.numSymbols = p.numSymbols) ∧ ∀ m ∈ p.maps, m.InScope)
    ⟨fun ⟨hne, hd, hs, hm⟩ => ⟨hne, hd, hs, hm⟩, fun ⟨hne, hd, hs, hm⟩ => ⟨hne, hd, hs, hm⟩⟩

end AffineSearch
