import AffineSearch.Tree.Basic

/-! Trees drawn one node to a line, with branches that connect each node to its parent. -/
namespace AffineSearch.Node

def caption (label : Option Step) (isGoal : Bool) : String :=
  (match label with
    | some s => s.text
    | none => "ROOT") ++ if isGoal then " [target]" else ""

/-- Hangs a drawing below a parent. The stem goes on past it where another child follows. -/
def hang (isLast : Bool) : List String → List String
  | [] => []
  | top :: below =>
    if isLast then ("└─ " ++ top) :: below.map ("   " ++ ·)
    else ("├─ " ++ top) :: below.map ("│  " ++ ·)

mutual

def lines : Node → List String
  | ⟨label, isGoal, _, children⟩ => caption label isGoal :: linesIn children

def linesIn : List Node → List String
  | [] => []
  | n :: rest => hang rest.isEmpty n.lines ++ linesIn rest

end

/-- Each line is closed by a line feed. -/
def drawing (n : Node) : String := String.join (n.lines.map (· ++ "\n"))

end AffineSearch.Node
