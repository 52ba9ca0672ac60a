/-! Affine expressions over the dimensions and symbols of an index space. -/
namespace AffineSearch

inductive Op where
  | add | mul | mod | floorDiv | ceilDiv
  deriving DecidableEq, Ord

/-- A tree as it stands: nothing is evaluated and no order of operands is assumed. -/
inductive Expr where
  | dim (position : Nat)
  | symbol (position : Nat)
  | const (value : Int64)
  | binary (op : Op) (lhs rhs : Expr)
  deriving DecidableEq

namespace Expr

def const? : Expr → Option Int64
  | const c => some c
  | _ => none

def dim? : Expr → Option Nat
  | dim p => some p
  | _ => none

def symbol? : Expr → Option Nat
  | symbol p => some p
  | _ => none

def isSum : Expr → Bool
  | binary .add _ _ => true
  | _ => false

/-- Every node of the tree, each before its operands. -/
def nodes : Expr → List Expr
  | e@(binary _ l r) => e :: (l.nodes ++ r.nodes)
  | e => [e]

def mentionsDim (p : Nat) : Expr → Bool
  | dim q => q == p
  | binary _ l r => l.mentionsDim p || r.mentionsDim p
  | _ => false

def mentionsSymbol (p : Nat) : Expr → Bool
  | symbol q => q == p
  | binary _ l r => l.mentionsSymbol p || r.mentionsSymbol p
  | _ => false

/-- The terms of nested sums from left to right. Any other expression is its own single term. -/
def summands : Expr → List Expr
  | binary .add l r => l.summands ++ r.summands
  | e => [e]

end Expr
end AffineSearch
