import AffineSearch.Mask
import AffineSearch.Pattern.Basic

/-! Steps that reorder results, add a dimension, or take a sum apart. -/
namespace AffineSearch

/-- With one more dimension of the given kind: a parallel one comes first, a reduction comes last.
A selected map also gets the new dimension as its first or last result. The kinds of all dimensions are listed, so
there is always room for one more. -/
def IndexMap.widen? (m : IndexMap) (kind : Kind) (numDims : Nat) (isSelected : Bool) : Option IndexMap :=
  match kind with
  | .parallel =>
    let wide := m.makeRoom 1 0
    if isSelected then (wide.insertResult (.dim 0) 0).toOption else some wide
  | .reduction =>
    let wide := m.makeRoom 1 numDims
    if isSelected then (wide.insertResult (.dim numDims) wide.numResults).toOption else some wide

def IndexMap.hasSumAt (m : IndexMap) (position : Nat) : Bool := (m.result? position).any Expr.isSum

/-- With the terms of the sum at `position` as results of their own. -/
def IndexMap.splitSum? (m : IndexMap) (position : Nat) : Option IndexMap :=
  match m.result? position with
  | some e =>
    if e.isSum then
      (m.withResults (m.results.take position ++ e.summands ++ m.results.drop (position + 1))).toOption
    else some m
  | none => some m

namespace Pattern

/-- Applies `f` to each map and whether it is selected. The mask must select an operand. -/
def mapSelected? (p : Pattern) (mask : Mask) (f : Bool → IndexMap → Option IndexMap) :
    Option (List IndexMap) :=
  if mask.selectsBelow p.numOperands then
    p.maps.zipIdx.mapM fun (m, i) => f (mask.isSelected i) m
  else none

/-- Exchanges two results of the selected operands. -/
def permute? (p : Pattern) (i j : Nat) (mask : Mask) : Option Pattern :=
  (p.mapSelected? mask fun isSelected m =>
    if isSelected then (m.swapResults i j).toOption else some m).map fun maps => ⟨maps, p.kinds⟩

/-- Adds a dimension, as a result of the selected operands. -/
def expand? (p : Pattern) (kind : Kind) (mask : Mask) : Option Pattern :=
  (p.mapSelected? mask fun isSelected m => m.widen? kind p.numDims isSelected).map fun maps =>
    ⟨maps, match kind with
      | .parallel => kind :: p.kinds
      | .reduction => p.kinds ++ [kind]⟩

/-- Takes apart the sums at `position`, of which there must be one. -/
def decompose? (p : Pattern) (position : Nat) : Option Pattern :=
  if p.maps.any (·.hasSumAt position) then
    (p.maps.mapM (IndexMap.splitSum? · position)).map fun maps => ⟨maps, p.kinds⟩
  else none

end Pattern
end AffineSearch
