import AffineSearch.Expr.Normal
import AffineSearch.Proofs.Word.Exact

/-! Folding goes by the laws of the operators. None of its steps changes a value, so none of it does. -/
namespace AffineSearch

theorem Op.value?_add_zero (a : Int) : add.value? a (0 : Int64).toInt = some a := by
  simp [value?]

theorem Op.value?_mul_one (a : Int) : mul.value? a (1 : Int64).toInt = some a := by
  simp [value?]

theorem Op.value?_mul_zero (a : Int) : mul.value? a (0 : Int64).toInt = some (0 : Int64).toInt := by
  simp [value?]

theorem Op.value?_mod_one (a : Int) : mod.value? a (1 : Int64).toInt = some (0 : Int64).toInt := by
  simp [value?]

theorem Op.value?_floorDiv_one (a : Int) : floorDiv.value? a (1 : Int64).toInt = some a := by
  simp [value?]

theorem Op.value?_ceilDiv_one (a : Int) : ceilDiv.value? a (1 : Int64).toInt = some a := by
  simp [value?]

/-- Sums and products, whose operands may trade places and be regrouped. -/
def Op.IsRing (op : Op) : Prop := op = .add ∨ op = .mul

theorem Op.IsRing.value?_comm {op : Op} (h : op.IsRing) (a b : Int) : op.value? a b = op.value? b a := by
  rcases h with rfl | rfl
  · simp [value?, Int.add_comm]
  · simp [value?, Int.mul_comm]

theorem Op.IsRing.value?_assoc {op : Op} (h : op.IsRing) (a b c : Int) :
    (op.value? a b).bind (op.value? · c) = (op.value? b c).bind (op.value? a ·) := by
  rcases h with rfl | rfl
  · simp [value?, Int.add_assoc]
  · simp [value?, Int.mul_assoc]

namespace Expr

/-- Any number of the steps that folding takes. -/
inductive Rewrites : Expr → Expr → Prop
  | refl {e} : Rewrites e e
  | trans {e e' e''} : Rewrites e e' → Rewrites e' e'' → Rewrites e e''
  | constants {op a b w} : op.onWords? a b = some w →
      Rewrites (binary op (const a) (const b)) (const w)
  | neutral {op l c} : (∀ a, op.value? a c.toInt = some a) → Rewrites (binary op l (const c)) l
  | absorbing {op l c w} : (∀ a, op.value? a c.toInt = some w.toInt) →
      Rewrites (binary op l (const c)) (const w)
  | swapped {op l r} : op.IsRing → Rewrites (binary op l r) (binary op r l)
  | regrouped {op l a b w} : op.IsRing → op.onWords? a b = some w →
      Rewrites (binary op (binary op l (const a)) (const b)) (binary op l (const w))

theorem rewrites_addConst (c : Int64) (e : Expr) : Rewrites (binary .add e (const c)) (e.addConst c) := by
  fun_induction addConst c e with
  | case1 c a s hs => exact .constants hs
  | case2 c a _ => exact .refl
  | case3 inner b => exact .neutral Op.value?_add_zero
  | case4 c inner b _ s hs ih => exact .trans (.regrouped (Or.inl rfl) hs) ih
  | case5 c inner b _ _ => exact .refl
  | case6 e _ _ => exact .neutral Op.value?_add_zero
  | case7 c e _ _ _ => exact .refl

theorem rewrites_mulConst (c : Int64) (e : Expr) : Rewrites (binary .mul e (const c)) (e.mulConst c) := by
  fun_induction mulConst c e with
  | case1 c a s hs => exact .constants hs
  | case2 c a _ => exact .refl
  | case3 inner b => exact .absorbing Op.value?_mul_zero
  | case4 inner b _ => exact .neutral Op.value?_mul_one
  | case5 c inner b _ _ s hs ih => exact .trans (.regrouped (Or.inr rfl) hs) ih
  | case6 c inner b _ _ _ => exact .refl
  | case7 e _ _ => exact .absorbing Op.value?_mul_zero
  | case8 e _ _ _ => exact .neutral Op.value?_mul_one
  | case9 c e _ _ _ _ => exact .refl

theorem rewrites_add (l r : Expr) : Rewrites (binary .add l r) (l.add r) := by
  fun_cases add l r with
  | case1 _ c => exact rewrites_addConst c l
  | case2 c _ => exact .trans (.swapped (Or.inl rfl)) (rewrites_addConst c r)
  | case3 _ _ _ _ => exact .refl

theorem rewrites_mul (l r : Expr) : Rewrites (binary .mul l r) (l.mul r) := by
  fun_cases mul l r with
  | case1 _ c => exact rewrites_mulConst c l
  | case2 c _ => exact .trans (.swapped (Or.inr rfl)) (rewrites_mulConst c r)
  | case3 _ _ _ _ => exact .refl

theorem rewrites_mod (l r : Expr) : Rewrites (binary .mod l r) (l.mod r) := by
  fun_cases mod l r with
  | case1 a b w hw => exact .constants hw
  | case2 a b _ => exact .refl
  | case3 l _ => exact .absorbing Op.value?_mod_one
  | case4 l r _ _ => exact .refl

theorem rewrites_floorDiv (l r : Expr) : Rewrites (binary .floorDiv l r) (l.floorDiv r) := by
  fun_cases floorDiv l r with
  | case1 a b w hw => exact .constants hw
  | case2 a b _ => exact .refl
  | case3 l _ => exact .neutral Op.value?_floorDiv_one
  | case4 l r _ _ => exact .refl

theorem rewrites_ceilDiv (l r : Expr) : Rewrites (binary .ceilDiv l r) (l.ceilDiv r) := by
  fun_cases ceilDiv l r with
  | case1 a b w hw => exact .constants hw
  | case2 a b _ => exact .refl
  | case3 l _ => exact .neutral Op.value?_ceilDiv_one
  | case4 l r _ _ => exact .refl

theorem rewrites_combine (op : Op) (l r : Expr) : Rewrites (binary op l r) (combine op l r) := by
  cases op with
  | add => exact rewrites_add l r
  | mul => exact rewrites_mul l r
  | mod => exact rewrites_mod l r
  | floorDiv => exact rewrites_floorDiv l r
  | ceilDiv => exact rewrites_ceilDiv l r

section
variable {x : Point} {op : Op} {e e' l l' r r' : Expr} {v : Int}

theorem value?_binary_eq_some_iff : (binary op l r).value? x = some v ↔
    ∃ a b, l.value? x = some a ∧ r.value? x = some b ∧ op.value? a b = some v := by
  simp only [value?]
  cases l.value? x <;> cases r.value? x <;> simp

theorem value?_binary_const_eq_some_iff {c : Int64} : (binary op l (const c)).value? x = some v ↔
    ∃ a, l.value? x = some a ∧ op.value? a c.toInt = some v := by
  rw [value?_binary_eq_some_iff]
  simp [value?]

theorem Rewrites.value?_eq_some (h : Rewrites e e') (hv : e.value? x = some v) :
    e'.value? x = some v := by
  induction h generalizing v with
  | refl => exact hv
  | trans _ _ ih ih' => exact ih' (ih hv)
  | constants hw =>
    rw [Op.onWords?_eq_some_iff] at hw
    exact hw.symm.trans hv
  | neutral hop =>
    obtain ⟨a, ha, hv⟩ := value?_binary_const_eq_some_iff.mp hv
    rw [ha, ← hop a]
    exact hv
  | absorbing hop =>
    obtain ⟨a, -, hv⟩ := value?_binary_const_eq_some_iff.mp hv
    exact (hop a).symm.trans hv
  | swapped hop =>
    obtain ⟨a, b, ha, hb, hv⟩ := value?_binary_eq_some_iff.mp hv
    rw [hop.value?_comm] at hv
    exact value?_binary_eq_some_iff.mpr ⟨b, a, hb, ha, hv⟩
  | @regrouped op l c d w hop hw =>
    obtain ⟨m, hm, hv⟩ := value?_binary_const_eq_some_iff.mp hv
    obtain ⟨a, ha, hm⟩ := value?_binary_const_eq_some_iff.mp hm
    rw [Op.onWords?_eq_some_iff] at hw
    have hassoc := hop.value?_assoc a c.toInt d.toInt
    rw [hm, hw] at hassoc
    exact value?_binary_const_eq_some_iff.mpr ⟨a, ha, hassoc.symm.trans hv⟩

theorem value?_combine (h : (binary op l r).value? x = some v) :
    (combine op l r).value? x = some v :=
  (rewrites_combine op l r).value?_eq_some h

theorem value?_refold (h : e.value? x = some v) : e.refold.value? x = some v := by
  induction e generalizing v with
  | dim p => exact h
  | symbol p => exact h
  | const c => exact h
  | binary op l r hl hr =>
    obtain ⟨a, b, ha, hb, hop⟩ := value?_binary_eq_some_iff.mp h
    exact value?_combine (value?_binary_eq_some_iff.mpr ⟨a, b, hl ha, hr hb, hop⟩)

/-- What an operation or a whole expression is worth, it is worth after folding. -/
theorem value?_folding (x : Point) (v : Int) :
    (∀ op l r, (binary op l r).value? x = some v → (combine op l r).value? x = some v) ∧
      ∀ e : Expr, e.value? x = some v → e.refold.value? x = some v := by
  constructor
  · intro op l r h
    exact value?_combine h
  · intro e h
    exact value?_refold h

/-- The first sum of constants is no word and stays. Factors meet although one stood on the left. -/
theorem value?_folding_negative_factor :
    let x : Point := ⟨fun _ => 7, fun _ => 0⟩
    let l := binary .add (dim 0) (const 0x7fffffffffffffff)
    let e := binary .floorDiv (binary .mul (binary .mul (const 3) (dim 0)) (const (-1))) (const (-4))
    (binary .add l (const 1)).value? x = some 0x8000000000000007 ∧
      (combine .add l (const 1)).value? x = some 0x8000000000000007 ∧
      e.value? x = some 5 ∧ e.refold = binary .floorDiv (binary .mul (dim 0) (const (-3))) (const (-4)) ∧
      e.refold.value? x = some 5 := by
  intro x l e
  have hl : (binary .add l (const 1)).value? x = some 0x8000000000000007 := by decide
  have he : e.value? x = some 5 := by decide
  exact ⟨hl, (value?_folding x _).1 _ _ _ hl, he, by decide, (value?_folding x _).2 _ he⟩

end
end Expr
end AffineSearch
