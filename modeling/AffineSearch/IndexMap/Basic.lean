import AffineSearch.Expr.Substitute

/-! Index maps: from the dimensions and symbols of an index space to one expression per tensor axis. -/
namespace AffineSearch

inductive MapError where
  | dimOutOfRange (position numDims : Nat)
  | symbolOutOfRange (position numSymbols : Nat)
  | resultOutOfRange (position numResults : Nat)
  deriving DecidableEq

def MapError.message : MapError → String
  | dimOutOfRange p n =>
    "dimension d" ++ toString p ++ " is out of range for a domain of " ++ toString n ++ " dimensions"
  | symbolOutOfRange p n =>
    "symbol s" ++ toString p ++ " is out of range for a domain of " ++ toString n ++ " symbols"
  | resultOutOfRange p n =>
    "result position " ++ toString p ++ " is out of range for a map with " ++ toString n ++ " results"

/-- The first variable of the expression, in the order of `nodes`, that a domain of this size lacks. -/
def Expr.outOfScope? (numDims numSymbols : Nat) : Expr → Option MapError
  | dim p => if p < numDims then none else some (.dimOutOfRange p numDims)
  | symbol p => if p < numSymbols then none else some (.symbolOutOfRange p numSymbols)
  | const _ => none
  | binary _ l r => (l.outOfScope? numDims numSymbols).or (r.outOfScope? numDims numSymbols)

/-- The results may mention variables outside the domain; `ofResults` builds only maps that do not. -/
structure IndexMap where
  numDims : Nat
  numSymbols : Nat
  results : List Expr
  deriving DecidableEq

namespace IndexMap

def ofResults (numDims numSymbols : Nat) (results : List Expr) : Except MapError IndexMap :=
  match results.findSome? (·.outOfScope? numDims numSymbols) with
  | some fault => .error fault
  | none => .ok ⟨numDims, numSymbols, results⟩

def identity (n : Nat) : IndexMap := ⟨n, 0, (List.range n).map .dim⟩

def numResults (m : IndexMap) : Nat := m.results.length

def result? (m : IndexMap) (position : Nat) : Option Expr := m.results[position]?

/-- Where the expression first stands as a result by itself. -/
def position? (m : IndexMap) (e : Expr) : Option Nat := m.results.findIdx? (· = e)

def mentionsDim (m : IndexMap) (p : Nat) : Bool := m.results.any (·.mentionsDim p)

def mentionsSymbol (m : IndexMap) (p : Nat) : Bool := m.results.any (·.mentionsSymbol p)

/-- The same domain with other results. -/
def withResults (m : IndexMap) (results : List Expr) : Except MapError IndexMap :=
  ofResults m.numDims m.numSymbols results

def replace (m : IndexMap) (old new : Expr) : IndexMap :=
  { m with results := m.results.map (·.replace old new) }

/-- Inserts `count` dimensions before dimension `offset`. Their number stays a word. -/
def shiftDims (m : IndexMap) (count offset : Nat) : IndexMap :=
  { m with numDims := Word.wrappingAdd m.numDims count, results := m.results.map (·.shiftDims count offset) }

/-- The same for maps of any size. -/
def makeRoom (m : IndexMap) (count offset : Nat) : IndexMap :=
  { m with numDims := m.numDims + count, results := m.results.map (·.makeRoom count offset) }

/-- Puts a result at `position`, before the one that stands there. -/
def insertResult (m : IndexMap) (e : Expr) (position : Nat) : Except MapError IndexMap :=
  if m.numResults < position then .error (.resultOutOfRange position m.numResults)
  else match e.outOfScope? m.numDims m.numSymbols with
    | some fault => .error fault
    | none => .ok { m with results := m.results.insertIdx position e }

def dropResults (m : IndexMap) (positions : List Nat) : IndexMap :=
  { m with results := (m.results.zipIdx.filter fun r => !positions.contains r.2).map (·.1) }

def swapResults (m : IndexMap) (i j : Nat) : Except MapError IndexMap :=
  match m.results[i]?, m.results[j]? with
  | none, _ => .error (.resultOutOfRange i m.numResults)
  | some _, none => .error (.resultOutOfRange j m.numResults)
  | some a, some b => .ok { m with results := (m.results.set i b).set j a }

end IndexMap
end AffineSearch
