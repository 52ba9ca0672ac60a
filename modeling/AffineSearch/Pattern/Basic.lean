import AffineSearch.IndexMap.Basic

/-! Patterns: what a structured tensor operation iterates over. Each operand has an index map, and each
dimension is iterated in parallel or as a reduction. -/
namespace AffineSearch

inductive Kind where
  | parallel | reduction
  deriving DecidableEq, Ord

inductive PatternError where
  | noMaps
  | dimensionCount (operand numDims numKinds : Nat)
  | symbolCount (operand numSymbols expected : Nat)
  | badMap (operand : Nat) (cause : MapError)
  deriving DecidableEq

def PatternError.message : PatternError → String
  | noMaps => "compute pattern needs at least one index map"
  | dimensionCount operand dims kinds =>
    "index map " ++ toString operand ++ " has " ++ toString dims ++
      " dimensions but the pattern has " ++ toString kinds ++ " iterator kinds"
  | symbolCount operand symbols expected =>
    "index map " ++ toString operand ++ " has " ++ toString symbols ++
      " symbols, expected " ++ toString expected
  | badMap operand cause =>
    "invalid index map for operand " ++ toString operand ++ ": " ++ cause.message

/-- The maps may disagree about their domain; `ofMaps` builds only patterns whose maps agree. -/
structure Pattern where
  maps : List IndexMap
  kinds : List Kind
  deriving DecidableEq

namespace Pattern

def numOperands (p : Pattern) : Nat := p.maps.length

def numDims (p : Pattern) : Nat := p.kinds.length

/-- The symbols of the first map, which stands for all. -/
def numSymbols (p : Pattern) : Nat :=
  match p.maps with
  | [] => 0
  | m :: _ => m.numSymbols

def maxNumResults (p : Pattern) : Nat := (p.maps.map (·.numResults)).max?.getD 0

/-- How the domain of a map differs from the expected one, the dimensions before the symbols. -/
def mismatch? (numKinds numSymbols operand : Nat) (m : IndexMap) : Option PatternError :=
  if m.numDims ≠ numKinds then some (.dimensionCount operand m.numDims numKinds)
  else if m.numSymbols ≠ numSymbols then some (.symbolCount operand m.numSymbols numSymbols)
  else none

def ofMaps (maps : List IndexMap) (kinds : List Kind) : Except PatternError Pattern :=
  match maps with
  | [] => .error .noMaps
  | first :: _ =>
    match maps.zipIdx.findSome? fun (m, i) => mismatch? kinds.length first.numSymbols i m with
    | some fault => .error fault
    | none => .ok ⟨maps, kinds⟩

/-- Builds the map of one operand over the domain that all of them share. -/
def operandMap (numDims numSymbols operand : Nat) (results : List Expr) : Except PatternError IndexMap :=
  match IndexMap.ofResults numDims numSymbols results with
  | .error cause => .error (.badMap operand cause)
  | .ok m => .ok m

def ofResults (numSymbols : Nat) (operands : List (List Expr)) (kinds : List Kind) :
    Except PatternError Pattern := do
  let maps ← operands.zipIdx.mapM fun (results, i) => operandMap kinds.length numSymbols i results
  ofMaps maps kinds

end Pattern
end AffineSearch
