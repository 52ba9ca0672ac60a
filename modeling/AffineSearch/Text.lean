/-! Written lists. -/
namespace AffineSearch.Text

/-- The items with a comma and a blank between neighbours. -/
def commas : List String → String
  | [] => ""
  | [t] => t
  | t :: rest => t ++ ", " ++ commas rest

end AffineSearch.Text
