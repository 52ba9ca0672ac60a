import AffineSearch.Expr.Value
import AffineSearch.IndexMap.Basic
import AffineSearch.Step.Basic

/-! The variables that steps remove and add, and how an assignment behind some steps is read in front of them. -/
namespace AffineSearch

namespace Point

/-- Dimension `d` gets the value `v` and those from `d` on move up. -/
def insertDim (x : Point) (d : Nat) (v : Int) : Point :=
  { x with dims := fun p => if p < d then x.dims p else if p = d then v else x.dims (p - 1) }

/-- Symbol `s` gets the value `v` and those from `s` on move up. -/
def insertSymbol (x : Point) (s : Nat) (v : Int) : Point :=
  { x with symbols := fun p => if p < s then x.symbols p else if p = s then v else x.symbols (p - 1) }

/-- Dimension `d` is left out and those above it move down. -/
def removeDim (x : Point) (d : Nat) : Point :=
  { x with dims := fun p => if p < d then x.dims p else x.dims (p + 1) }

end Point

/-- The sum of the expressions, if each of them has a value. -/
def Expr.total? (x : Point) : List Expr → Option Int
  | [] => some 0
  | e :: rest =>
    match e.value? x, total? x rest with
    | some a, some b => some (a + b)
    | _, _ => none

namespace Step

def removesDim : Step → Bool
  | unroll _ | mergeDims _ _ => true
  | dropSymbol _ | permute _ _ _ | expand _ _ | decompose _ => false

def addsDim : Step → Bool
  | expand _ _ => true
  | unroll _ | dropSymbol _ | mergeDims _ _ | permute _ _ _ | decompose _ => false

def removesSymbol : Step → Bool
  | dropSymbol _ => true
  | unroll _ | mergeDims _ _ | permute _ _ _ | expand _ _ | decompose _ => false

def removesVariable (s : Step) : Bool := s.removesDim || s.removesSymbol

/-- The number of dimensions behind the step. -/
def dimsAfter (numDims : Nat) (s : Step) : Nat :=
  if s.removesDim then numDims - 1 else if s.addsDim then numDims + 1 else numDims

/-- The number of symbols behind the step. -/
def symbolsAfter (numSymbols : Nat) (s : Step) : Nat :=
  if s.removesSymbol then numSymbols - 1 else numSymbols

/-- Where a new dimension stands: a parallel one comes first, a reduction comes last. -/
def addedDim? (numDims : Nat) : Step → Option Nat
  | expand .parallel _ => some 0
  | expand .reduction _ => some numDims
  | unroll _ | dropSymbol _ | mergeDims _ _ | permute _ _ _ | decompose _ => none

/-- The assignment in front of a step, where there are `numDims` dimensions. A dimension that the step
removes is 0 and a symbol is 1. -/
def pullBack (numDims : Nat) : Step → Point → Point
  | unroll d, x | mergeDims _ d, x => x.insertDim d 0
  | dropSymbol s, x => x.insertSymbol s 1
  | expand .parallel _, x => x.removeDim 0
  | expand .reduction _, x => x.removeDim numDims
  | permute _ _ _, x | decompose _, x => x

/-- The assignment in front of all the steps, from the last of them back to the first. -/
def pullBackAll (numDims : Nat) : List Step → Point → Point
  | [], x => x
  | s :: rest, x => s.pullBack numDims (pullBackAll (s.dimsAfter numDims) rest x)

/-- Whether each dimension that the steps add is 0 right behind the step that adds it. -/
def AddedAtZero (numDims : Nat) : List Step → Point → Prop
  | [], _ => True
  | s :: rest, x => AddedAtZero (s.dimsAfter numDims) rest x ∧
      ∀ d ∈ s.addedDim? numDims, (pullBackAll (s.dimsAfter numDims) rest x).dims d = 0

end Step
end AffineSearch
