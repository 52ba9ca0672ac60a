import AffineSearch.Proofs.Expr.Variables

/-! The terms of a sum however it is bracketed. They are the parts of it that are not sums themselves, in the
order in which they are written. -/
namespace AffineSearch.Expr

/-- The expression is the sum of these terms, added in this order and bracketed in some way. -/
inductive IsSumOf : Expr → List Expr → Prop
  | term {e : Expr} : e.isSum = false → IsSumOf e [e]
  | sum {l r : Expr} {ls rs : List Expr} : IsSumOf l ls → IsSumOf r rs →
      IsSumOf (binary .add l r) (ls ++ rs)

variable {e t : Expr} {terms : List Expr} {dims symbols : Nat → Prop}

theorem isSum_eq_true_iff : e.isSum = true ↔ ∃ l r, e = binary .add l r := by
  cases e with
  | binary op l r => cases op <;> simp [isSum]
  | _ => simp [isSum]

theorem summands_of_not_isSum (h : e.isSum = false) : e.summands = [e] := by
  rw [summands]
  rintro l r rfl
  cases h

theorem isSumOf_iff : e.IsSumOf terms ↔ terms = e.summands := by
  constructor
  · intro h
    induction h with
    | term hterm => exact (summands_of_not_isSum hterm).symm
    | sum _ _ hl hr => rw [summands, hl, hr]
  · rintro rfl
    induction e using summands.induct with
    | case1 l r hl hr => exact .sum hl hr
    | case2 e hne =>
      have hterm : e.isSum = false := by
        rw [← Bool.not_eq_true, isSum_eq_true_iff]
        rintro ⟨l, r, rfl⟩
        exact hne l r rfl
      rw [summands_of_not_isSum hterm]
      exact .term hterm

theorem isSumOf_summands (e : Expr) : e.IsSumOf e.summands := isSumOf_iff.mpr rfl

/-- What passes from a sum to its operands passes to all of its terms. -/
theorem of_mem_summands {P : Expr → Prop} (hoperands : ∀ l r, P (binary .add l r) → P l ∧ P r)
    (h : P e) (ht : t ∈ e.summands) : P t := by
  induction e using summands.induct with
  | case1 l r hl hr =>
    obtain ⟨hleft, hright⟩ := hoperands l r h
    rcases List.mem_append.mp ht with ht | ht
    · exact hl hleft ht
    · exact hr hright ht
  | case2 e hne =>
    rw [summands, List.mem_singleton] at ht
    · exact ht ▸ h
    · exact hne

theorem VarsIn.of_mem_summands (h : e.VarsIn dims symbols) (ht : t ∈ e.summands) : t.VarsIn dims symbols :=
  Expr.of_mem_summands (P := fun e => e.VarsIn dims symbols) (fun _ _ h => h) h ht

theorem IsSumOf.not_isSum (h : e.IsSumOf terms) (ht : t ∈ terms) : t.isSum = false := by
  induction h with
  | term hterm =>
    rw [List.mem_singleton] at ht
    exact ht ▸ hterm
  | sum _ _ hl hr => exact (List.mem_append.mp ht).elim hl hr

theorem IsSumOf.length_pos (h : e.IsSumOf terms) : 0 < terms.length := by
  induction h with
  | term _ => exact Nat.one_pos
  | sum _ _ hl hr =>
    rw [List.length_append]
    omega

theorem IsSumOf.two_le_length (h : e.IsSumOf terms) (he : e.isSum = true) : 2 ≤ terms.length := by
  cases h with
  | term hterm =>
    rw [hterm] at he
    cases he
  | sum hl hr =>
    have hleft := hl.length_pos
    have hright := hr.length_pos
    rw [List.length_append]
    omega

end AffineSearch.Expr
