import AffineSearch.IndexMap.Text
import AffineSearch.Pattern.Basic

/-! The written form of patterns: `maps=[(d0) -> (d0)], iterators=[parallel]`. -/
namespace AffineSearch

def Kind.text : Kind → String
  | .parallel => "parallel"
  | .reduction => "reduction"

def Pattern.text (p : Pattern) : String :=
  "maps=[" ++ Text.commas (p.maps.map IndexMap.text) ++
    "], iterators=[" ++ Text.commas (p.kinds.map Kind.text) ++ "]"

end AffineSearch
