import AffineSearch.IndexMap.Project
import AffineSearch.Pattern.Basic

/-! Steps that remove a variable from a pattern. The variable takes a fixed value, leaves every domain,
and the results that have become 0 go with it. No operand may lose all of its results. -/
namespace AffineSearch

/-- Without its zero results, unless nothing else is left. -/
def IndexMap.dropZeros? (m : IndexMap) : Option IndexMap :=
  match m.results.filter (· ≠ .const 0) with
  | [] => none
  | kept => some { m with results := kept }

def IndexMap.eliminateDim? (m : IndexMap) (d : Nat) : Option IndexMap :=
  ((m.replace (.dim d) (.const 0)).projectDims [d]).dropZeros?

def IndexMap.eliminateSymbol? (m : IndexMap) (s : Nat) : Option IndexMap :=
  ((m.replace (.symbol s) (.const 1)).projectSymbols [s]).dropZeros?

/-- Whether both dimensions are unused, or plain neighbouring results in this order. -/
def IndexMap.isMergeable (m : IndexMap) (d1 d2 : Nat) : Bool :=
  match m.position? (.dim d1), m.position? (.dim d2) with
  | some i, some j => i + 1 == j
  | none, none => !m.mentionsDim d1 && !m.mentionsDim d2
  | _, _ => false

namespace Pattern

/-- Holds a dimension at 0 and removes it. -/
def unroll? (p : Pattern) (d : Nat) : Option Pattern :=
  if d < p.numDims then
    (p.maps.mapM (IndexMap.eliminateDim? · d)).map fun maps => ⟨maps, p.kinds.eraseIdx d⟩
  else none

/-- Holds a symbol at 1 and removes it. -/
def dropSymbol? (p : Pattern) (s : Nat) : Option Pattern :=
  if s < p.numSymbols then
    (p.maps.mapM (IndexMap.eliminateSymbol? · s)).map fun maps => ⟨maps, p.kinds⟩
  else none

/-- Lets `d1` stand for both dimensions. They must be of one kind and mergeable in every map. -/
def mergeDims? (p : Pattern) (d1 d2 : Nat) : Option Pattern :=
  if d1 ≠ d2 ∧ d1 < p.numDims ∧ p.kinds[d1]? = p.kinds[d2]? ∧ p.maps.all (·.isMergeable d1 d2) then
    p.unroll? d2
  else none

end Pattern
end AffineSearch
