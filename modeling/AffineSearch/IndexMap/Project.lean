import AffineSearch.IndexMap.Basic

/-! Projection removes variables from a domain. What still mentions a removed variable reads 0 there,
and the variables that stay close ranks in their old order. -/
namespace AffineSearch

/-- How many different members of the list lie below `bound`. -/
def countBelow (bound : Nat) : List Nat → Nat
  | [] => 0
  | p :: rest => (if p < bound ∧ p ∉ rest then 1 else 0) + countBelow bound rest

/-- What a projection puts for variable `p`. Variables outside the domain are left alone. -/
def projected (make : Nat → Expr) (count : Nat) (positions : List Nat) (p : Nat) : Expr :=
  if count ≤ p then make p
  else if p ∈ positions then .const 0
  else make (p - countBelow p positions)

namespace IndexMap

def projectDims (m : IndexMap) (positions : List Nat) : IndexMap where
  numDims := m.numDims - countBelow m.numDims positions
  numSymbols := m.numSymbols
  results := m.results.map (·.substitute (projected .dim m.numDims positions) .symbol)

def projectSymbols (m : IndexMap) (positions : List Nat) : IndexMap where
  numDims := m.numDims
  numSymbols := m.numSymbols - countBelow m.numSymbols positions
  results := m.results.map (·.substitute .dim (projected .symbol m.numSymbols positions))

end IndexMap
end AffineSearch
