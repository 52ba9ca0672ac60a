import AffineSearch.Expr.Substitute
import AffineSearch.Proofs.Expr.Folding

/-! What the folding constructors make of each kind of redex. All else they leave as it stands, so what is
combined from redex-free expressions is redex-free. -/
namespace AffineSearch

namespace Op
variable {op : Op} {a b c u v w : Int64}

theorem exists_onWords? {x : Int} (h : op.value? a.toInt b.toInt = some x) (hx : FitsWord x) :
    ∃ w, op.onWords? a b = some w := by
  have hw : (Int64.ofInt x).toInt = x := Int64.toInt_ofInt_of_le hx.1 hx.2
  exact ⟨Int64.ofInt x, onWords?_eq_some_iff.mpr (h.trans (congrArg some hw.symm))⟩

theorem IsRing.onWords?_comm (hop : op.IsRing) (h : op.onWords? a b = some w) :
    op.onWords? b a = some w := by
  rw [onWords?_eq_some_iff] at h ⊢
  rw [hop.value?_comm]
  exact h

theorem IsRing.onWords?_assoc (hop : op.IsRing) (hab : op.onWords? a b = some u)
    (hbc : op.onWords? b c = some w) (huc : op.onWords? u c = some v) : op.onWords? a w = some v := by
  rw [onWords?_eq_some_iff] at *
  have hassoc := hop.value?_assoc a.toInt b.toInt c.toInt
  rw [hab, hbc] at hassoc
  exact hassoc.symm.trans huc

end Op

namespace Expr
variable {op : Op} {l r : Expr} {a b c w : Int64}

theorem combine_const_const (op : Op) (a b : Int64) :
    combine op (const a) (const b) =
      ((op.onWords? a b).map const).getD (binary op (const a) (const b)) := by
  unfold Op.onWords?
  cases op with
  | add =>
    simp only [combine, add, addConst]
    cases Word.add? a b <;> rfl
  | mul =>
    simp only [combine, mul, mulConst]
    cases Word.mul? a b <;> rfl
  | mod =>
    simp only [combine, mod]
    cases Word.mod? a b <;> rfl
  | floorDiv =>
    simp only [combine, floorDiv]
    cases Word.floorDiv? a b <;> rfl
  | ceilDiv =>
    simp only [combine, ceilDiv]
    cases Word.ceilDiv? a b <;> rfl

theorem combine_constants (h : op.onWords? a b = some w) :
    combine op (const a) (const b) = const w := by
  rw [combine_const_const, h]
  rfl

theorem combine_add_const (l : Expr) (c : Int64) : combine .add l (const c) = l.addConst c := by
  cases l <;> rfl

theorem combine_mul_const (l : Expr) (c : Int64) : combine .mul l (const c) = l.mulConst c := by
  cases l <;> rfl

theorem combine_add_zero (l : Expr) : combine .add l (const 0) = l := by
  cases l with
  | const a => exact combine_constants (Op.onWords?_eq_some_iff.mpr (Op.value?_add_zero _))
  | dim p => rfl
  | symbol p => rfl
  | binary op l r =>
    rw [combine_add_const]
    unfold addConst
    split
    · next h => cases h
    · next h => exact (if_pos rfl).trans h.symm
    · exact if_pos rfl

theorem combine_mul_zero (l : Expr) : combine .mul l (const 0) = const 0 := by
  cases l with
  | const a => exact combine_constants (Op.onWords?_eq_some_iff.mpr (Op.value?_mul_zero _))
  | dim p => rfl
  | symbol p => rfl
  | binary op l r =>
    rw [combine_mul_const]
    unfold mulConst
    split
    · next h => cases h
    · exact if_pos rfl
    · exact if_pos rfl

theorem combine_mul_one (l : Expr) : combine .mul l (const 1) = l := by
  cases l with
  | const a => exact combine_constants (Op.onWords?_eq_some_iff.mpr (Op.value?_mul_one _))
  | dim p => rfl
  | symbol p => rfl
  | binary op l r =>
    have hone : (1 : Int64) ≠ 0 := by decide
    rw [combine_mul_const]
    unfold mulConst
    split
    · next h => cases h
    · next h => rw [if_neg hone, if_pos rfl, h]
    · rw [if_neg hone, if_pos rfl]

theorem combine_mod_one (l : Expr) : combine .mod l (const 1) = const 0 := by
  cases l with
  | const a => exact combine_constants (Op.onWords?_eq_some_iff.mpr (Op.value?_mod_one _))
  | dim p => rfl
  | symbol p => rfl
  | binary op l r => rfl

theorem combine_floorDiv_one (l : Expr) : combine .floorDiv l (const 1) = l := by
  cases l with
  | const a => exact combine_constants (Op.onWords?_eq_some_iff.mpr (Op.value?_floorDiv_one _))
  | dim p => rfl
  | symbol p => rfl
  | binary op l r => rfl

theorem combine_ceilDiv_one (l : Expr) : combine .ceilDiv l (const 1) = l := by
  cases l with
  | const a => exact combine_constants (Op.onWords?_eq_some_iff.mpr (Op.value?_ceilDiv_one _))
  | dim p => rfl
  | symbol p => rfl
  | binary op l r => rfl

theorem combine_swapped (hop : op.IsRing) (hr : r.const? = none) :
    combine op (const c) r = combine op r (const c) := by
  cases r with
  | const b => cases hr
  | dim p => rcases hop with rfl | rfl <;> rfl
  | symbol p => rcases hop with rfl | rfl <;> rfl
  | binary op' l r => rcases hop with rfl | rfl <;> rfl

/-- Constants meet behind an operand that does not fold with the first of them. -/
theorem combine_regrouped (hop : op.IsRing) (hw : op.onWords? a b = some w)
    (hfold : combine op l (const a) = binary op l (const a)) :
    combine op (binary op l (const a)) (const b) = combine op l (const w) := by
  have hneutral : (∀ x, op.value? x b.toInt = some x) → w = a := by
    intro hx
    have haw : op.onWords? a b = some a := Op.onWords?_eq_some_iff.mpr (hx a.toInt)
    exact Option.some.inj (hw.symm.trans haw)
  rcases hop with rfl | rfl
  · by_cases hzero : b = 0
    · subst hzero
      rw [combine_add_zero, hneutral Op.value?_add_zero, hfold]
    · simp only [Op.onWords?] at hw
      rw [combine_add_const, combine_add_const, addConst, if_neg hzero, hw]
  · by_cases hzero : b = 0
    · subst hzero
      have hw0 : Op.mul.onWords? a 0 = some 0 := Op.onWords?_eq_some_iff.mpr (Op.value?_mul_zero _)
      obtain rfl : w = 0 := Option.some.inj (hw.symm.trans hw0)
      rw [combine_mul_zero, combine_mul_zero]
    · by_cases hone : b = 1
      · subst hone
        rw [combine_mul_one, hneutral Op.value?_mul_one, hfold]
      · simp only [Op.onWords?] at hw
        rw [combine_mul_const, combine_mul_const, mulConst, if_neg hzero, if_neg hone, hw]

theorem isRedex_constants (h : op.onWords? a b = some w) : IsRedex op (const a) (const b) :=
  .constants (Op.onWords?_eq_some_iff.mp h) (Word.toInt_bounds w)

theorem addConst_eq_binary (h : ¬IsRedex .add l (const c)) :
    l.addConst c = binary .add l (const c) := by
  have hzero : c ≠ 0 := fun hc => h (hc ▸ .addZero)
  fun_cases addConst c l with
  | case1 a s hs => exact (h (isRedex_constants hs)).elim
  | case2 a hs => rfl
  | case3 inner b hc => exact absurd hc hzero
  | case4 inner b _ s hs =>
    have hsum := Word.ofInt?_eq_some_iff.mp hs
    exact absurd (.nestedSum (hsum ▸ Word.toInt_bounds s)) h
  | case5 inner b _ hs => rfl
  | case6 => exact absurd ‹c = 0› hzero
  | case7 => rfl

theorem mulConst_eq_binary (h : ¬IsRedex .mul l (const c)) :
    l.mulConst c = binary .mul l (const c) := by
  have hzero : c ≠ 0 := fun hc => h (hc ▸ .mulZero)
  have hone : c ≠ 1 := fun hc => h (hc ▸ .mulOne)
  fun_cases mulConst c l with
  | case1 a s hs => exact (h (isRedex_constants hs)).elim
  | case2 a hs => rfl
  | case3 inner b hc => exact absurd hc hzero
  | case4 inner b _ hc => exact absurd hc hone
  | case5 inner b _ _ s hs =>
    have hproduct := Word.ofInt?_eq_some_iff.mp hs
    exact absurd (.nestedProduct (hproduct ▸ Word.toInt_bounds s)) h
  | case6 inner b _ _ hs => rfl
  | case7 => exact absurd ‹c = 0› hzero
  | case8 => exact absurd ‹c = 1› hone
  | case9 => rfl

theorem const?_eq_some_iff : l.const? = some c ↔ l = const c := by
  cases l <;> simp [const?]

theorem const?_eq_none (h : ∀ c, l = const c → False) : l.const? = none :=
  Option.eq_none_iff_forall_ne_some.mpr fun c hc => h c (const?_eq_some_iff.mp hc)

theorem combine_eq_binary (h : ¬IsRedex op l r) : combine op l r = binary op l r := by
  cases op with
  | add =>
    show l.add r = _
    fun_cases add l r with
    | case1 _ c => exact addConst_eq_binary h
    | case2 => exact absurd (.swappedSum (const?_eq_none (by assumption))) h
    | case3 => rfl
  | mul =>
    show l.mul r = _
    fun_cases mul l r with
    | case1 _ c => exact mulConst_eq_binary h
    | case2 => exact absurd (.swappedProduct (const?_eq_none (by assumption))) h
    | case3 => rfl
  | mod =>
    show l.mod r = _
    fun_cases mod l r with
    | case1 a b s hs => exact (h (isRedex_constants hs)).elim
    | case2 a b hs => rfl
    | case3 => exact absurd .modOne h
    | case4 => rfl
  | floorDiv =>
    show l.floorDiv r = _
    fun_cases floorDiv l r with
    | case1 a b s hs => exact (h (isRedex_constants hs)).elim
    | case2 a b hs => rfl
    | case3 => exact absurd .floorDivOne h
    | case4 => rfl
  | ceilDiv =>
    show l.ceilDiv r = _
    fun_cases ceilDiv l r with
    | case1 a b s hs => exact (h (isRedex_constants hs)).elim
    | case2 a b hs => rfl
    | case3 => exact absurd .ceilDivOne h
    | case4 => rfl

section
variable {motive : Op → Expr → Expr → Expr → Prop}

theorem combine_const_induction
    (node : ∀ op l r, ¬IsRedex op l r → motive op l r (binary op l r))
    (constants : ∀ op a b w, op.onWords? a b = some w → motive op (const a) (const b) (const w))
    (neutral : ∀ op l c, (∀ l', combine op l' (const c) = l') → motive op l (const c) l)
    (mulZero : ∀ l, motive .mul l (const 0) (const 0))
    (modOne : ∀ l, motive .mod l (const 1) (const 0))
    (regrouped : ∀ op l a b w e, op.IsRing → op.onWords? a b = some w → ¬IsRedex op l (const a) →
      motive op l (const w) e → motive op (binary op l (const a)) (const b) e)
    (op : Op) (l : Expr) (c : Int64) (hl : l.RedexFree) :
    motive op l (const c) (combine op l (const c)) := by
  by_cases h : IsRedex op l (const c)
  · cases h with
    | swappedSum hr => cases hr
    | swappedProduct hr => cases hr
    | addZero =>
      rw [combine_add_zero]
      exact neutral _ _ _ combine_add_zero
    | mulZero =>
      rw [combine_mul_zero]
      exact mulZero l
    | mulOne =>
      rw [combine_mul_one]
      exact neutral _ _ _ combine_mul_one
    | floorDivOne =>
      rw [combine_floorDiv_one]
      exact neutral _ _ _ combine_floorDiv_one
    | ceilDivOne =>
      rw [combine_ceilDiv_one]
      exact neutral _ _ _ combine_ceilDiv_one
    | modOne =>
      rw [combine_mod_one]
      exact modOne l
    | @nestedSum l a _ hfits =>
      obtain ⟨w, hw⟩ : ∃ w, Op.add.onWords? a c = some w := Op.exists_onWords? rfl hfits
      rw [combine_regrouped (Or.inl rfl) hw (combine_eq_binary hl.1)]
      exact regrouped _ _ _ _ w _ (Or.inl rfl) hw hl.1
        (combine_const_induction node constants neutral mulZero modOne regrouped .add l w hl.2.1)
    | @nestedProduct l a _ hfits =>
      obtain ⟨w, hw⟩ : ∃ w, Op.mul.onWords? a c = some w := Op.exists_onWords? rfl hfits
      rw [combine_regrouped (Or.inr rfl) hw (combine_eq_binary hl.1)]
      exact regrouped _ _ _ _ w _ (Or.inr rfl) hw hl.1
        (combine_const_induction node constants neutral mulZero modOne regrouped .mul l w hl.2.1)
    | constants hv hfits =>
      obtain ⟨w, hw⟩ := Op.exists_onWords? hv hfits
      rw [combine_constants hw]
      exact constants _ _ _ w hw
  · rw [combine_eq_binary h]
    exact node op l _ h
termination_by l

/-- Each redex is folded by one rule, which may leave another redex behind the operands it met. What all of
the rules keep holds of what is combined from redex-free operands. -/
theorem combine_induction
    (node : ∀ op l r, ¬IsRedex op l r → motive op l r (binary op l r))
    (constants : ∀ op a b w, op.onWords? a b = some w → motive op (const a) (const b) (const w))
    (neutral : ∀ op l c, (∀ l', combine op l' (const c) = l') → motive op l (const c) l)
    (mulZero : ∀ l, motive .mul l (const 0) (const 0))
    (modOne : ∀ l, motive .mod l (const 1) (const 0))
    (swapped : ∀ op c r e, op.IsRing → r.const? = none → motive op r (const c) e → motive op (const c) r e)
    (regrouped : ∀ op l a b w e, op.IsRing → op.onWords? a b = some w → ¬IsRedex op l (const a) →
      motive op l (const w) e → motive op (binary op l (const a)) (const b) e)
    (op : Op) (l r : Expr) (hl : l.RedexFree) (hr : r.RedexFree) : motive op l r (combine op l r) := by
  have hconst := combine_const_induction node constants neutral mulZero modOne regrouped
  by_cases h : IsRedex op l r
  · cases h with
    | swappedSum hnone =>
      rw [combine_swapped (Or.inl rfl) hnone]
      exact swapped _ _ _ _ (Or.inl rfl) hnone (hconst _ _ _ hr)
    | swappedProduct hnone =>
      rw [combine_swapped (Or.inr rfl) hnone]
      exact swapped _ _ _ _ (Or.inr rfl) hnone (hconst _ _ _ hr)
    | addZero => exact hconst _ _ _ hl
    | mulZero => exact hconst _ _ _ hl
    | mulOne => exact hconst _ _ _ hl
    | floorDivOne => exact hconst _ _ _ hl
    | ceilDivOne => exact hconst _ _ _ hl
    | modOne => exact hconst _ _ _ hl
    | nestedSum _ => exact hconst _ _ _ hl
    | nestedProduct _ => exact hconst _ _ _ hl
    | constants _ _ => exact hconst _ _ _ hl
  · rw [combine_eq_binary h]
    exact node op l r h

end

theorem redexFree_combine (hl : l.RedexFree) (hr : r.RedexFree) : (combine op l r).RedexFree := by
  refine combine_induction (motive := fun _ l r e => l.RedexFree → r.RedexFree → e.RedexFree)
    ?node ?constants ?neutral ?mulZero ?modOne ?swapped ?regrouped op l r hl hr hl hr
  case node => exact fun op l r h hl hr => ⟨h, hl, hr⟩
  case constants => exact fun op a b w hw _ _ => trivial
  case neutral => exact fun op l c hc hl _ => hl
  case mulZero => exact fun l _ _ => trivial
  case modOne => exact fun l _ _ => trivial
  case swapped => exact fun op c r e hop hr ih hc hr => ih hr hc
  case regrouped => exact fun op l a b w e hop hw hredex ih hl hb => ih hl.2.1 trivial

theorem redexFree_substitute {f g : Nat → Expr} (hf : ∀ p, (f p).RedexFree) (hg : ∀ p, (g p).RedexFree)
    (e : Expr) : (e.substitute f g).RedexFree := by
  induction e with
  | dim p => exact hf p
  | symbol p => exact hg p
  | const c => trivial
  | binary op l r hl hr => exact redexFree_combine hl hr

end Expr
end AffineSearch
