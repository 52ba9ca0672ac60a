import AffineSearch.Proofs.Expr.Renaming
import AffineSearch.Proofs.Expr.Summands

/-! Folded expressions are those without a redex, and what the folding constructors make of them is one again.
Their operands, their summands and their copies over other dimensions are folded with them. -/
namespace AffineSearch.Expr

instance (e : Expr) : Decidable e.IsFolded := inferInstanceAs (Decidable (e.refold = e))

def IsVariable : Expr → Prop
  | dim _ => True
  | symbol _ => True
  | _ => False

variable {e t v : Expr}

theorem isFolded_dim (p : Nat) : (dim p).IsFolded := rfl

theorem redexFree_refold (e : Expr) : e.refold.RedexFree := by
  induction e with
  | dim p => trivial
  | symbol p => trivial
  | const c => trivial
  | binary op l r hl hr => exact redexFree_combine hl hr

theorem RedexFree.refold_eq (h : e.RedexFree) : e.refold = e := by
  induction e with
  | dim p => rfl
  | symbol p => rfl
  | const c => rfl
  | binary op l r hl hr =>
    obtain ⟨hredex, hleft, hright⟩ := h
    rw [refold, hl hleft, hr hright, combine_eq_binary hredex]

theorem isFolded_iff_redexFree : e.IsFolded ↔ e.RedexFree := by
  constructor
  · intro h
    rw [← show e.refold = e from h]
    exact redexFree_refold e
  · exact RedexFree.refold_eq

instance (e : Expr) : Decidable e.RedexFree := decidable_of_iff e.IsFolded isFolded_iff_redexFree

theorem IsVariable.refold_eq (hv : v.IsVariable) : v.refold = v := by
  cases v with
  | dim p => rfl
  | symbol p => rfl
  | const c => rfl
  | binary op l r => exact hv.elim

/-- Nothing but the variable is replaced, so each operator is combined anew from its rebuilt operands. -/
theorem replace_self (hv : v.IsVariable) (e : Expr) : e.replace v v = e.refold := by
  refine replace_induction (motive := fun e e' => e' = e.refold) ?found ?dim ?symbol ?const ?binary e
  case found => exact hv.refold_eq.symm
  case dim => exact fun p _ => rfl
  case symbol => exact fun p _ => rfl
  case const => exact fun c => rfl
  case binary =>
    intro op l r l' r' hl hr
    rw [hl, hr, refold]

/-- The folding constructors yield no redex where their operands have none. The expressions without one are
those that a rebuild gives back, and to replace a variable by itself is to rebuild. -/
theorem redexFree_normal_form :
    (∀ op (l r : Expr), l.RedexFree → r.RedexFree → (combine op l r).RedexFree) ∧
    ∀ e v : Expr, v.IsVariable → e.replace v v = e.refold ∧ (e.RedexFree ↔ e.replace v v = e) := by
  constructor
  · intro op l r hl hr
    exact redexFree_combine hl hr
  · intro e v hv
    have hrebuilt := replace_self hv e
    refine ⟨hrebuilt, ?_⟩
    rw [hrebuilt]
    exact isFolded_iff_redexFree.symm

/-- A sum that is no word stays and has no redex. A later constant that brings it back into the words folds it. -/
theorem redexFree_normal_form_overflow :
    let full := binary .add (dim 0) (const 0x7fffffffffffffff)
    let overfull := binary .add full (const 1)
    let raw := binary .add (const 2) (binary .add overfull (const (-3)))
    (combine .add full (const 1) = overfull ∧ overfull.RedexFree) ∧
    (combine .add overfull (const (-1)) = full ∧ (combine .add overfull (const (-1))).RedexFree) ∧
    (¬raw.RedexFree ∧ raw.replace (symbol 4) (symbol 4) = full) := by
  intro full overfull raw
  obtain ⟨hcombine, hreplace⟩ := redexFree_normal_form
  have hover : overfull.RedexFree := by decide
  have hraw := (hreplace raw (symbol 4) trivial).2
  refine ⟨⟨by decide, hover⟩, ⟨by decide, hcombine .add overfull (const (-1)) hover trivial⟩, ?_, by decide⟩
  rw [hraw]
  decide

theorem RedexFree.of_mem_summands (h : e.RedexFree) (ht : t ∈ e.summands) : t.RedexFree :=
  Expr.of_mem_summands (P := RedexFree) (fun _ _ hsum => hsum.2) h ht

theorem makeRoom_eq_rename (e : Expr) (count offset : Nat) :
    e.makeRoom count offset = e.rename (fun p => if offset ≤ p then p + count else p) id := by
  induction e with
  | dim p => rfl
  | symbol p => rfl
  | const c => rfl
  | binary op l r hl hr => rw [makeRoom, rename, hl, hr]

/-- To close the gap that a shift has made is to take it back. -/
theorem rename_makeRoom (e : Expr) (count offset : Nat) :
    (e.makeRoom count offset).rename (fun p => if p < offset then p else p - count) id = e := by
  induction e with
  | dim p =>
    by_cases hp : offset ≤ p
    · have hback : ¬p + count < offset := by omega
      simp only [Expr.makeRoom, rename, if_pos hp, if_neg hback, Nat.add_sub_cancel]
    · simp only [Expr.makeRoom, rename, if_neg hp, if_pos (Nat.lt_of_not_le hp)]
  | symbol p => rfl
  | const c => rfl
  | binary op l r hl hr => rw [makeRoom, rename, hl, hr]

theorem RedexFree.makeRoom (h : e.RedexFree) (count offset : Nat) :
    (e.makeRoom count offset).RedexFree := by
  rw [makeRoom_eq_rename]
  exact h.rename _ id

end AffineSearch.Expr
