import AffineSearch.Proofs.Expr.Variables
import AffineSearch.Step.Variables

/-! The value of an expression whose parts were replaced, read off the values of what replaced them. -/
namespace AffineSearch

/-- An integer for some of the dimensions and symbols. -/
structure PartialPoint where
  dims : Nat → Option Int
  symbols : Nat → Option Int

/-- What a table gives a variable at a point: the value of its entry, if that has one, and beyond the end its own. -/
def Point.tableValue? (x : Point) (own : Nat → Int) (table : List Expr) (p : Nat) : Option Int :=
  match table[p]? with
  | some e => e.value? x
  | none => some (own p)

def PartialPoint.ofTables (dims symbols : List Expr) (x : Point) : PartialPoint :=
  ⟨x.tableValue? x.dims dims, x.tableValue? x.symbols symbols⟩

namespace Expr

/-- A variable without an integer has no value, and no more has an operation on it. -/
def partialValue? (z : PartialPoint) : Expr → Option Int
  | dim p => z.dims p
  | symbol p => z.symbols p
  | const c => some c.toInt
  | binary op l r =>
    match l.partialValue? z, r.partialValue? z with
    | some a, some b => op.value? a b
    | _, _ => none

variable {x y : Point} {z : PartialPoint} {e l r old new : Expr} {op : Op} {v : Int}

theorem partialValue?_binary_eq_some_iff : (binary op l r).partialValue? z = some v ↔
    ∃ a b, l.partialValue? z = some a ∧ r.partialValue? z = some b ∧ op.value? a b = some v := by
  cases hl : l.partialValue? z <;> cases hr : r.partialValue? z <;> simp [partialValue?, hl, hr]

/-- Where all variables of the expression have integers, its value is the one at a point with these. -/
theorem partialValue?_eq_value?
    (hvars : e.VarsIn (fun p => z.dims p = some (y.dims p)) fun p => z.symbols p = some (y.symbols p)) :
    e.partialValue? z = e.value? y := by
  induction e with
  | dim p => exact hvars
  | symbol p => exact hvars
  | const c => rfl
  | binary op l r hl hr =>
    ext v
    rw [partialValue?_binary_eq_some_iff, value?_binary_eq_some_iff, hl hvars.1, hr hvars.2]

theorem value?_substitute_of_partialValue? {f g : Nat → Expr} (hf : ∀ p, (f p).value? x = z.dims p)
    (hg : ∀ p, (g p).value? x = z.symbols p) (h : e.partialValue? z = some v) :
    (e.substitute f g).value? x = some v := by
  induction e generalizing v with
  | dim p => exact (hf p).trans h
  | symbol p => exact (hg p).trans h
  | const c => exact h
  | binary op l r hl hr =>
    obtain ⟨a, b, ha, hb, hop⟩ := partialValue?_binary_eq_some_iff.mp h
    exact value?_combine (value?_binary_eq_some_iff.mpr ⟨a, b, hl ha, hr hb, hop⟩)

theorem value?_entryOr {self : Nat → Expr} {own : Nat → Int}
    (h : ∀ p, (self p).value? x = some (own p)) (table : List Expr) (p : Nat) :
    (entryOr self table p).value? x = x.tableValue? own table p := by
  unfold entryOr Point.tableValue?
  cases table[p]? with
  | none => exact h p
  | some e => rfl

theorem value?_substituteLists {dims symbols : List Expr}
    (h : e.partialValue? (.ofTables dims symbols x) = some v) :
    (e.substituteLists dims symbols).value? x = some v := by
  refine value?_substitute_of_partialValue? ?dims ?symbols h
  case dims => exact value?_entryOr (fun _ => rfl) dims
  case symbols => exact value?_entryOr (fun _ => rfl) symbols

theorem value?_substitute {f g : Nat → Expr}
    (hvars : e.VarsIn (fun p => (f p).value? x = some (y.dims p))
      fun p => (g p).value? x = some (y.symbols p))
    (h : e.value? y = some v) : (e.substitute f g).value? x = some v := by
  let z : PartialPoint := ⟨fun p => (f p).value? x, fun p => (g p).value? x⟩
  have hz : e.partialValue? z = some v := (partialValue?_eq_value? hvars).trans h
  exact value?_substitute_of_partialValue? (fun _ => rfl) (fun _ => rfl) hz

theorem value?_replace (hsame : old.value? x = new.value? x) (h : e.value? x = some v) :
    (e.replace old new).value? x = some v := by
  refine replace_induction (motive := fun e e' => ∀ v, e.value? x = some v → e'.value? x = some v)
    ?found ?dim ?symbol ?const ?binary e v h
  case found => exact fun v h => hsame.symm.trans h
  case dim => exact fun p _ v h => h
  case symbol => exact fun p _ v h => h
  case const => exact fun c v h => h
  case binary =>
    intro op l r l' r' hl hr v h
    obtain ⟨a, b, ha, hb, hop⟩ := value?_binary_eq_some_iff.mp h
    exact value?_combine (value?_binary_eq_some_iff.mpr ⟨a, b, hl a ha, hr b hb, hop⟩)

theorem mentionsDim_replace_dim {p : Nat} (h : new.mentionsDim p = false) (e : Expr) :
    (e.replace (dim p) new).mentionsDim p = false := by
  rw [mentionsDim_eq_false_iff] at *
  apply varsIn_replace h
  apply varsIn_of_forall
  · intro p' hne heq
    exact hne (heq ▸ rfl)
  · intro s _
    trivial

theorem mentionsSymbol_replace_symbol {p : Nat} (h : new.mentionsSymbol p = false) (e : Expr) :
    (e.replace (symbol p) new).mentionsSymbol p = false := by
  rw [mentionsSymbol_eq_false_iff] at *
  apply varsIn_replace h
  apply varsIn_of_forall
  · intro d _
    trivial
  · intro p' hne heq
    exact hne (heq ▸ rfl)

/-- An expression keeps its value when its variables are replaced by tables that give them the same values, or one
of its parts by another of the same value. A dimension that was replaced has gone. -/
theorem replacements_keep_values (e : Expr) :
    (∀ dims symbols x v, e.partialValue? (.ofTables dims symbols x) = some v →
      (e.substituteLists dims symbols).value? x = some v) ∧
    (∀ old new x v, old.value? x = new.value? x → e.value? x = some v →
      (e.replace old new).value? x = some v) ∧
    ∀ p new, new.mentionsDim p = false → (e.replace (dim p) new).mentionsDim p = false := by
  refine ⟨?tables, ?parts, ?gone⟩
  case tables =>
    intro dims symbols x v h
    exact value?_substituteLists h
  case parts =>
    intro old new x v hsame h
    exact value?_replace hsame h
  case gone =>
    intro p new hnew
    exact mentionsDim_replace_dim hnew e

/-- The first entry has no value and stands for a dimension that does not occur, and `d5` is beyond the table. In all
three results a product was swapped on the way up. -/
theorem replacements_keep_values_strided :
    let x : Point := ⟨fun p => -7 - p, fun p => -10 - p⟩
    let inner := binary .add (dim 1) (const (-3))
    let e := binary .add (binary .floorDiv (binary .mul (const 2) inner) (symbol 0)) (dim 5)
    let dims := [binary .mod (symbol 0) (const 0), binary .add (dim 0) (const 3)]
    (e.partialValue? (.ofTables dims [const 4] x) = some (-16) ∧
      e.substituteLists dims [const 4] =
        binary .add (binary .floorDiv (binary .mul (dim 0) (const 2)) (const 4)) (dim 5) ∧
      (e.substituteLists dims [const 4]).value? x = some (-16)) ∧
    (inner.value? x = (symbol 1).value? x ∧ e.value? x = some (-10) ∧
      (e.replace inner (symbol 1)).value? x = some (-10)) ∧
    ((symbol 1).mentionsDim 1 = false ∧ e.mentionsDim 1 = true ∧
      (e.replace (dim 1) (symbol 1)).mentionsDim 1 = false) := by
  intro x inner e dims
  obtain ⟨htables, hparts, hgone⟩ := replacements_keep_values e
  have hvalue : e.partialValue? (.ofTables dims [const 4] x) = some (-16) := by decide
  have hsame : inner.value? x = (symbol 1).value? x := by decide
  have hbefore : e.value? x = some (-10) := by decide
  have hnew : (symbol 1).mentionsDim 1 = false := rfl
  exact ⟨⟨hvalue, by decide, htables dims [const 4] x _ hvalue⟩,
    ⟨hsame, hbefore, hparts inner (symbol 1) x _ hsame hbefore⟩,
    ⟨hnew, rfl, hgone 1 (symbol 1) hnew⟩⟩

theorem value?_makeRoom (x : Point) (e : Expr) (count offset : Nat) :
    (e.makeRoom count offset).value? x =
      e.value? { x with dims := fun p => x.dims (if offset ≤ p then p + count else p) } := by
  induction e with
  | dim p => rfl
  | symbol p => rfl
  | const c => rfl
  | binary op l r hl hr => simp only [makeRoom, value?, hl, hr]

theorem value?_makeRoom_one (x : Point) (e : Expr) (d : Nat) :
    (e.makeRoom 1 d).value? x = e.value? (x.removeDim d) := by
  rw [value?_makeRoom]
  congr 2
  funext p
  by_cases hp : d ≤ p
  · rw [if_pos hp, if_neg (Nat.not_lt_of_le hp)]
  · rw [if_neg hp, if_pos (Nat.lt_of_not_le hp)]

end Expr
end AffineSearch
