import AffineSearch.Expr.Fold
import AffineSearch.Expr.Value

/-! Normal forms. An expression is folded when folding all of it again changes nothing. What that rules
out is also said directly, by the operations that a normal form does not contain. -/
namespace AffineSearch

/-- Whether an integer is a signed 64-bit word. -/
def FitsWord (v : Int) : Prop := -0x8000000000000000 ≤ v ∧ v < 0x8000000000000000

namespace Expr

/-- Folds every operator of the tree, from the leaves up. -/
def refold : Expr → Expr
  | binary op l r => combine op l.refold r.refold
  | e => e

def IsFolded (e : Expr) : Prop := e.refold = e

/-- Operations that can be written more simply. -/
inductive IsRedex : Op → Expr → Expr → Prop
  | swappedSum {c r} : r.const? = none → IsRedex .add (const c) r
  | swappedProduct {c r} : r.const? = none → IsRedex .mul (const c) r
  | addZero {l} : IsRedex .add l (const 0)
  | mulZero {l} : IsRedex .mul l (const 0)
  | mulOne {l} : IsRedex .mul l (const 1)
  | floorDivOne {l} : IsRedex .floorDiv l (const 1)
  | ceilDivOne {l} : IsRedex .ceilDiv l (const 1)
  | modOne {l} : IsRedex .mod l (const 1)
  | nestedSum {l a b} : FitsWord (a.toInt + b.toInt) →
      IsRedex .add (binary .add l (const a)) (const b)
  | nestedProduct {l a b} : FitsWord (a.toInt * b.toInt) →
      IsRedex .mul (binary .mul l (const a)) (const b)
  | constants {op a b v} : op.value? a.toInt b.toInt = some v → FitsWord v →
      IsRedex op (const a) (const b)

def RedexFree : Expr → Prop
  | binary op l r => ¬IsRedex op l r ∧ l.RedexFree ∧ r.RedexFree
  | _ => True

end Expr
end AffineSearch
