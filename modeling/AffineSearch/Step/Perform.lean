import AffineSearch.Pattern.Eliminate
import AffineSearch.Pattern.Rearrange
import AffineSearch.Step.Basic

/-! Performing steps, one or many. -/
namespace AffineSearch

/-- The changed pattern, or nothing where the step does not apply. -/
def Step.perform? : Step → Pattern → Option Pattern
  | unroll d, p => p.unroll? d
  | dropSymbol s, p => p.dropSymbol? s
  | mergeDims d1 d2, p => p.mergeDims? d1 d2
  | permute i j mask, p => p.permute? i j mask
  | expand kind mask, p => p.expand? kind mask
  | decompose position, p => p.decompose? position

/-- Performs the steps one after the other. -/
def Pattern.replay? (p : Pattern) : List Step → Option Pattern
  | [] => some p
  | s :: rest => (s.perform? p).bind (·.replay? rest)

end AffineSearch
