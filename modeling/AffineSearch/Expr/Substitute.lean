import AffineSearch.Expr.Fold

/-! Replacing parts of an expression. Substitution folds on the way up; renumbering keeps the shape. -/
namespace AffineSearch.Expr

/-- Puts `dims p` for each `dim p` and `symbols p` for each `symbol p`. -/
def substitute (dims symbols : Nat → Expr) : Expr → Expr
  | dim p => dims p
  | symbol p => symbols p
  | const c => const c
  | binary op l r => combine op (l.substitute dims symbols) (r.substitute dims symbols)

/-- A table read as a substitution: variables beyond its end stand for themselves. -/
def entryOr (self : Nat → Expr) (table : List Expr) (p : Nat) : Expr :=
  table[p]?.getD (self p)

def substituteLists (dims symbols : List Expr) : Expr → Expr :=
  substitute (entryOr dim dims) (entryOr symbol symbols)

/-- Puts `new` for every outermost occurrence of `old` in `e`. -/
def replace (e old new : Expr) : Expr :=
  if e = old then new
  else match e with
    | binary op l r => combine op (l.replace old new) (r.replace old new)
    | leaf => leaf

/-- Makes room for `count` new dimensions from `offset` on. The numbers are words. -/
def shiftDims (count offset : Nat) : Expr → Expr
  | dim p => dim (if offset ≤ p then Word.wrappingAdd p count else p)
  | binary op l r => binary op (l.shiftDims count offset) (r.shiftDims count offset)
  | e => e

/-- The same with numbers of any size. -/
def makeRoom (count offset : Nat) : Expr → Expr
  | dim p => dim (if offset ≤ p then p + count else p)
  | binary op l r => binary op (l.makeRoom count offset) (r.makeRoom count offset)
  | e => e

end AffineSearch.Expr
