import AffineSearch.Expr.Text
import AffineSearch.IndexMap.Basic
import AffineSearch.Text

/-! The written form of index maps: `(d0, d1)[s0] -> (d0 + s0, d1)`. -/
namespace AffineSearch.IndexMap

/-- The variables `name0`, `name1`, … of a domain part. -/
def variablesText (name : String) (n : Nat) : String :=
  Text.commas ((List.range n).map fun p => name ++ toString p)

/-- Symbols are listed only where there are some. -/
def symbolsText (n : Nat) : String :=
  if n = 0 then "" else "[" ++ variablesText "s" n ++ "]"

def text (m : IndexMap) : String :=
  "(" ++ variablesText "d" m.numDims ++ ")" ++ symbolsText m.numSymbols ++
    " -> (" ++ Text.commas (m.results.map Expr.text) ++ ")"

end AffineSearch.IndexMap
