import AffineSearch.Document.Pattern
import AffineSearch.Step.Basic

/-! Steps as documents: the parameters by name, under the name of the step. -/
namespace AffineSearch.Step

def toDocument : Step → Document
  | unroll d => .obj [("Unroll", .obj [("dim", .int d)])]
  | dropSymbol s => .obj [("DropSymbol", .obj [("symbol", .int s)])]
  | mergeDims d1 d2 => .obj [("MergeDims", .obj [("dim1", .int d1), ("dim2", .int d2)])]
  | permute i j mask =>
    .obj [("Permutation", .obj [("positions", .arr [.int i, .int j]), ("mask", mask.toDocument)])]
  | expand kind mask => .obj [("ExpandDims", .obj [("kind", kind.toDocument), ("mask", mask.toDocument)])]
  | decompose position => .obj [("DecomposeExpr", .obj [("position", .int position)])]

/-- Two positions in an array of just these. -/
def positionsOfDocument? : Document → Option (Nat × Nat)
  | .arr [i, j] => do return (← i.count?, ← j.count?)
  | _ => none

def ofDocument? : Document → Option Step
  | .obj [(name, .obj members)] =>
    let count? key := (Document.member? key members).bind Document.count?
    let mask? := (Document.member? "mask" members).bind Mask.ofDocument?
    match name with
    | "Unroll" => do return unroll (← count? "dim")
    | "DropSymbol" => do return dropSymbol (← count? "symbol")
    | "MergeDims" => do return mergeDims (← count? "dim1") (← count? "dim2")
    | "Permutation" => do
      let (i, j) ← (Document.member? "positions" members).bind positionsOfDocument?
      return permute i j (← mask?)
    | "ExpandDims" => do
      let kind ← (Document.member? "kind" members).bind Kind.ofDocument?
      return expand kind (← mask?)
    | "DecomposeExpr" => do return decompose (← count? "position")
    | _ => none
  | _ => none

end AffineSearch.Step
