import AffineSearch.Proofs.Expr.Folded

/-! Sums that are bracketed to the left. Their terms, added one after the other, give them back, because nothing
that a folded sum joins can be folded. -/
namespace AffineSearch.Expr

/-- No sum that is met on the way down the left operands has a sum on its right. -/
def IsLeftNested : Expr → Prop
  | binary .add l r => r.isSum = false ∧ l.IsLeftNested
  | _ => True

/-- The terms added from left to right, each to all of those before it. -/
def addAll? : List Expr → Option Expr
  | [] => none
  | first :: rest => some (rest.foldl add first)

/-- One pass over the expression puts its terms behind those that are listed already. -/
def collectSummands : Expr → List Expr → List Expr
  | binary .add l r, listed => r.collectSummands (l.collectSummands listed)
  | e, listed => listed ++ [e]

variable {e : Expr} {terms : List Expr}

theorem addAll?_concat (h : addAll? terms = some e) (t : Expr) : addAll? (terms ++ [t]) = some (e.add t) := by
  cases terms with
  | nil => cases h
  | cons first rest =>
    obtain rfl := Option.some.inj h
    rw [List.cons_append, addAll?, List.foldl_append]
    rfl

theorem addAll?_summands (hfree : e.RedexFree) (hnested : e.IsLeftNested) : addAll? e.summands = some e := by
  induction e using summands.induct with
  | case1 l r hl _ =>
    obtain ⟨hredex, hleft, -⟩ := hfree
    obtain ⟨hterm, hspine⟩ := hnested
    have hsum : l.add r = binary .add l r := combine_eq_binary hredex
    rw [summands, summands_of_not_isSum hterm, addAll?_concat (hl hleft hspine), hsum]
  | case2 e hne =>
    rw [summands]
    · rfl
    · exact hne

theorem collectSummands_eq (e : Expr) (listed : List Expr) : e.collectSummands listed = listed ++ e.summands := by
  induction e using summands.induct generalizing listed with
  | case1 l r hl hr => rw [collectSummands, hl, hr, summands, List.append_assoc]
  | case2 e hne =>
    rw [collectSummands, summands]
    · exact hne
    · exact hne

/-- A folded sum that is bracketed to the left is what its terms add up to. The terms of any expression are what one
pass over it lists: at least one, none of them a sum, those of the left operand of a sum before those of the right,
and anything else by itself. -/
theorem summands_rebuild_sums :
    (∀ e : Expr, e.IsFolded → e.IsLeftNested → addAll? e.summands = some e) ∧
    (∀ (e : Expr) (listed : List Expr), e.collectSummands listed = listed ++ e.summands) ∧
    (∀ e : Expr, e.summands ≠ [] ∧ ∀ t ∈ e.summands, t.isSum = false) ∧
    (∀ l r : Expr, (binary .add l r).summands = l.summands ++ r.summands) ∧
    ∀ e : Expr, e.isSum = false → e.summands = [e] := by
  refine ⟨?rebuilt, collectSummands_eq, ?terms, fun _ _ => rfl, fun _ => summands_of_not_isSum⟩
  case rebuilt =>
    intro e hfolded hnested
    exact addAll?_summands (isFolded_iff_redexFree.mp hfolded) hnested
  case terms =>
    intro e
    have hsum := e.isSumOf_summands
    exact ⟨List.ne_nil_of_length_pos hsum.length_pos, fun _ => hsum.not_isSum⟩

/-- The two constants at the end have no word for their sum, so they stay apart. The second sum is bracketed to the
right, and what its terms add up to is bracketed to the left. -/
theorem summands_rebuild_sums_overflow :
    let scaled := binary .mul (dim 0) (const 2)
    let largest := const 0x7fffffffffffffff
    let e := binary .add (binary .add (binary .add scaled (symbol 0)) largest) (const 1)
    let e' := binary .add (dim 0) (binary .add (dim 1) (const 3))
    (e.IsFolded ∧ e.IsLeftNested ∧ e.summands = [scaled, symbol 0, largest, const 1] ∧
      addAll? [scaled, symbol 0, largest, const 1] = some e) ∧
    (e'.IsFolded ∧ ¬e'.IsLeftNested ∧ e'.summands = [dim 0, dim 1, const 3] ∧
      addAll? e'.summands = some (binary .add (binary .add (dim 0) (dim 1)) (const 3))) ∧
    scaled.isSum = false ∧ scaled.summands = [scaled] := by
  intro scaled largest e e'
  have hfolded : e.IsFolded := by decide
  have hnested : e.IsLeftNested := ⟨rfl, rfl, rfl, trivial⟩
  have hsummands : e.summands = [scaled, symbol 0, largest, const 1] := rfl
  obtain ⟨hrebuild, -, -, -, hsingle⟩ := summands_rebuild_sums
  have hrebuilt := hrebuild e hfolded hnested
  rw [hsummands] at hrebuilt
  have hright : ¬e'.IsLeftNested := fun h => Bool.noConfusion h.1
  exact ⟨⟨hfolded, hnested, hsummands, hrebuilt⟩, ⟨by decide, hright, rfl, by decide⟩, rfl,
    hsingle scaled rfl⟩

end AffineSearch.Expr
