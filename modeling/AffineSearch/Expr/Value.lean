import AffineSearch.Expr.Basic

/-! The value of an expression in exact integers, where it has one. -/
namespace AffineSearch

/-- Division by 0 has no value, and neither has a remainder whose modulus is not positive. -/
def Op.value? : Op → Int → Int → Option Int
  | .add, a, b => some (a + b)
  | .mul, a, b => some (a * b)
  | .mod, a, b => if 0 < b then some (a % b) else none
  | .floorDiv, a, b => if b = 0 then none else some (a.fdiv b)
  | .ceilDiv, a, b => if b = 0 then none else some (-(-a).fdiv b)

/-- An integer for every dimension and every symbol. -/
structure Point where
  dims : Nat → Int
  symbols : Nat → Int

/-- An operation has a value where its operands have and the operator is defined on them. -/
def Expr.value? (x : Point) : Expr → Option Int
  | dim p => some (x.dims p)
  | symbol p => some (x.symbols p)
  | const c => some c.toInt
  | binary op l r =>
    match l.value? x, r.value? x with
    | some a, some b => op.value? a b
    | _, _ => none

end AffineSearch
