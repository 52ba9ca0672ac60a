import AffineSearch.Expr.Basic
import AffineSearch.Word

/-! Constructors that fold as they build. Constants move to the right operand of a sum or product and
collect there, neutral operands vanish, and an operator on two constants becomes its value where that
is a word. Variables are never reordered. -/
namespace AffineSearch.Expr

/-- `e + c`. A constant that ends `e` absorbs `c` unless their sum is no word. -/
def addConst (c : Int64) : Expr → Expr
  | const a =>
    match Word.add? a c with
    | some s => const s
    | none => binary .add (const a) (const c)
  | e@(binary .add inner (const b)) =>
    if c = 0 then e
    else match Word.add? b c with
      | some s => inner.addConst s
      | none => binary .add e (const c)
  | e => if c = 0 then e else binary .add e (const c)

/-- `e * c`. A constant factor that ends `e` absorbs `c` unless their product is no word. -/
def mulConst (c : Int64) : Expr → Expr
  | const a =>
    match Word.mul? a c with
    | some s => const s
    | none => binary .mul (const a) (const c)
  | e@(binary .mul inner (const b)) =>
    if c = 0 then const 0
    else if c = 1 then e
    else match Word.mul? b c with
      | some s => inner.mulConst s
      | none => binary .mul e (const c)
  | e => if c = 0 then const 0 else if c = 1 then e else binary .mul e (const c)

def add : Expr → Expr → Expr
  | l, const c => l.addConst c
  | const c, r => r.addConst c
  | l, r => binary .add l r

def mul : Expr → Expr → Expr
  | l, const c => l.mulConst c
  | const c, r => r.mulConst c
  | l, r => binary .mul l r

instance : Add Expr := ⟨add⟩

instance : Mul Expr := ⟨mul⟩

def floorDiv : Expr → Expr → Expr
  | const a, const b =>
    match Word.floorDiv? a b with
    | some q => const q
    | none => binary .floorDiv (const a) (const b)
  | l, r => if r = const 1 then l else binary .floorDiv l r

def ceilDiv : Expr → Expr → Expr
  | const a, const b =>
    match Word.ceilDiv? a b with
    | some q => const q
    | none => binary .ceilDiv (const a) (const b)
  | l, r => if r = const 1 then l else binary .ceilDiv l r

def mod : Expr → Expr → Expr
  | const a, const b =>
    match Word.mod? a b with
    | some r => const r
    | none => binary .mod (const a) (const b)
  | l, r => if r = const 1 then const 0 else binary .mod l r

/-- The folding constructor of each operator. -/
def combine : Op → Expr → Expr → Expr
  | .add => add
  | .mul => mul
  | .mod => mod
  | .floorDiv => floorDiv
  | .ceilDiv => ceilDiv

end AffineSearch.Expr
