import AffineSearch.Proofs.IndexMap.Specialize
import AffineSearch.Proofs.Pattern.Invariant

/-! Steps that do nothing but remove a variable. To every map they are one substitution for all variables. -/
namespace AffineSearch

namespace Step
variable {s : Step} {numDims numSymbols : Nat} {m : IndexMap}

/-- The steps that do nothing but remove a variable. -/
def IsElimination : Step → Prop
  | unroll _ | dropSymbol _ => True
  | mergeDims _ _ | permute _ _ _ | expand _ _ | decompose _ => False

/-- What an elimination puts for each dimension. -/
def dimsTo : Step → Nat → Expr
  | unroll d => Expr.held .dim d 0
  | dropSymbol _ | mergeDims _ _ | permute _ _ _ | expand _ _ | decompose _ => .dim

/-- What an elimination puts for each symbol. -/
def symbolsTo : Step → Nat → Expr
  | dropSymbol s => Expr.held .symbol s 1
  | unroll _ | mergeDims _ _ | permute _ _ _ | expand _ _ | decompose _ => .symbol

theorem magnitude_dimsTo_le (s : Step) (p : Nat) : (s.dimsTo p).magnitude ≤ 2 := by
  cases s with
  | unroll d => exact Expr.magnitude_held_le Expr.magnitude_dim_le (by decide) p
  | _ => exact Expr.magnitude_dim_le p

theorem magnitude_symbolsTo_le (s : Step) (p : Nat) : (s.symbolsTo p).magnitude ≤ 2 := by
  cases s with
  | dropSymbol s => exact Expr.magnitude_held_le Expr.magnitude_symbol_le (by decide) p
  | _ => exact Expr.magnitude_symbol_le p

theorem onMap?_eq_specialize? (hs : s.IsElimination) (h : m.Over numDims numSymbols)
    (hown : s.RemovesOwn numDims numSymbols) (operand : Nat) :
    s.onMap? numDims operand m =
      m.specialize? (s.dimsAfter numDims) (s.symbolsAfter numSymbols) s.dimsTo s.symbolsTo := by
  obtain ⟨rfl, rfl, hscope⟩ := h
  cases s with
  | unroll d => exact IndexMap.eliminateDim?_eq_specialize? hscope hown
  | dropSymbol s => exact IndexMap.eliminateSymbol?_eq_specialize? hscope hown
  | mergeDims d1 d2 => exact hs.elim
  | permute i j mask => exact hs.elim
  | expand kind mask => exact hs.elim
  | decompose position => exact hs.elim

end Step

theorem Pattern.perform?_eq_some_iff {p q : Pattern} {s : Step} (hs : s.IsElimination) :
    s.perform? p = some q ↔ s.RemovesOwn p.numDims p.numSymbols ∧
      p.maps.mapM (s.onMap? p.numDims 0) = some q.maps ∧ q.kinds = s.onKinds p.kinds := by
  rw [mapM_eq_some_iff]
  cases s with
  | unroll d => exact unroll?_eq_some_iff
  | dropSymbol s => exact dropSymbol?_eq_some_iff
  | mergeDims d1 d2 => exact hs.elim
  | permute i j mask => exact hs.elim
  | expand kind mask => exact hs.elim
  | decompose position => exact hs.elim

end AffineSearch
