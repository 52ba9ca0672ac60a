import AffineSearch.Expr.Basic

/-! The written form of expressions. Below a sum only a sum on the right stands in parentheses; below
every other operator each operand that is an operation does. -/
namespace AffineSearch

def Op.text : Op → String
  | .add => "+"
  | .mul => "*"
  | .mod => "mod"
  | .floorDiv => "floordiv"
  | .ceilDiv => "ceildiv"

namespace Expr

/-- Whether an operand of `parent` needs parentheses. -/
def needsParens (parent : Op) (isRight : Bool) : Expr → Bool
  | binary op _ _ => parent != .add || (isRight && op == .add)
  | _ => false

/-- An operand's text, in parentheses where they are needed. -/
def operandText (parens : Bool) (t : String) : String :=
  if parens then "(" ++ t ++ ")" else t

def text : Expr → String
  | dim p => "d" ++ toString p
  | symbol p => "s" ++ toString p
  | const c => toString c.toInt
  | binary op l r =>
    operandText (needsParens op false l) l.text ++ " " ++ op.text ++ " " ++
      operandText (needsParens op true r) r.text

/-- The tree written with its operator first: `(add d0 -3)`. -/
def structureText : Expr → String
  | dim p => "d" ++ toString p
  | symbol p => "s" ++ toString p
  | const c => toString c.toInt
  | binary op l r => "(" ++ opName op ++ " " ++ l.structureText ++ " " ++ r.structureText ++ ")"
where
  opName : Op → String
    | .add => "add"
    | .mul => "mul"
    | .mod => "mod"
    | .floorDiv => "floordiv"
    | .ceilDiv => "ceildiv"

end Expr
end AffineSearch
