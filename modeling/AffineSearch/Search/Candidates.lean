import AffineSearch.Step.Basic

/-! The steps that a search tries from a pattern, in order. -/
namespace AffineSearch

/-- All `i < j` below `n` in lexicographic order. -/
def pairsBelow (n : Nat) : List (Nat × Nat) :=
  (List.range n).flatMap fun i => (List.range' (i + 1) (n - 1 - i)).map fun j => (i, j)

namespace Pattern

/-- Where the first operand has sums as results. -/
def sumPositions (p : Pattern) : List Nat :=
  match p.maps with
  | [] => []
  | m :: _ => (m.results.zipIdx.filter (·.1.isSum)).map (·.2)

/-- Dimensions are removed only above the goal's number of them and added only below it. -/
def candidates (p : Pattern) (goalDims : Nat) : List Step :=
  let masks := Mask.nonEmptySubsets p.numOperands
  (if goalDims < p.numDims then
    (List.range p.numDims).map .unroll ++ (pairsBelow p.numDims).map fun (i, j) => .mergeDims i j
  else []) ++
  (List.range p.numSymbols).map .dropSymbol ++
  ((pairsBelow p.maxNumResults).flatMap fun (i, j) => masks.map (.permute i j ·)) ++
  (if p.numDims < goalDims then
    [Kind.parallel, Kind.reduction].flatMap fun kind => masks.map (.expand kind ·)
  else []) ++
  p.sumPositions.map .decompose

end Pattern
end AffineSearch
