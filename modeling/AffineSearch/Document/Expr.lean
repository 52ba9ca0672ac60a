import AffineSearch.Document.Basic
import AffineSearch.Expr.Basic
import AffineSearch.Word

/-! Expressions as documents. Reading builds the tree as it is written and folds nothing. -/
namespace AffineSearch

def Op.documentName : Op → String
  | .add => "Add"
  | .mul => "Mul"
  | .mod => "Mod"
  | .floorDiv => "FloorDiv"
  | .ceilDiv => "CeilDiv"

def Op.toDocument (op : Op) : Document := .str op.documentName

def Op.ofName? : String → Option Op
  | "Add" => some .add
  | "Mul" => some .mul
  | "Mod" => some .mod
  | "FloorDiv" => some .floorDiv
  | "CeilDiv" => some .ceilDiv
  | _ => none

def Op.ofDocument? (d : Document) : Option Op := d.name?.bind ofName?

namespace Expr

def toDocument : Expr → Document
  | dim p => .obj [("Dim", .int p)]
  | symbol p => .obj [("Symbol", .int p)]
  | const c => .obj [("Constant", .int c.toInt)]
  | binary op l r =>
    .obj [("Binary", .obj [("op", op.toDocument), ("lhs", l.toDocument), ("rhs", r.toDocument)])]

def constOfDocument? : Document → Option Int64
  | .int v => Word.ofInt? v
  | _ => none

mutual

def ofDocument? : Document → Option Expr
  | .obj [("Dim", d)] => d.count?.map dim
  | .obj [("Symbol", d)] => d.count?.map symbol
  | .obj [("Constant", d)] => (constOfDocument? d).map const
  | .obj [("Binary", .obj members)] => do
    let op ← (Document.member? "op" members).bind Op.ofDocument?
    let l ← ofMember? "lhs" members
    let r ← ofMember? "rhs" members
    return binary op l r
  | _ => none

/-- The expression under the first member of that name. -/
def ofMember? (name : String) : List (String × Document) → Option Expr
  | [] => none
  | (k, d) :: rest => if k = name then ofDocument? d else ofMember? name rest

end

end Expr
end AffineSearch
