import AffineSearch.Proofs.Expr.Summands
import AffineSearch.Step.Variables

/-! Sums of several expressions: which changes of the list leave them as they are. -/
namespace AffineSearch.Expr

variable {x y : Point} {e : Expr} {es fs : List Expr} {v : Int}

@[simp] theorem total?_nil (x : Point) : total? x [] = some 0 := rfl

theorem total?_cons_eq_some_iff : total? x (e :: es) = some v ↔
    ∃ a b, e.value? x = some a ∧ total? x es = some b ∧ a + b = v := by
  simp only [total?]
  cases e.value? x <;> cases total? x es <;> simp

theorem total?_append_eq_some_iff : total? x (es ++ fs) = some v ↔
    ∃ a b, total? x es = some a ∧ total? x fs = some b ∧ a + b = v := by
  induction es generalizing v with
  | nil => simp
  | cons e es ih =>
    simp only [List.cons_append, total?_cons_eq_some_iff, ih]
    constructor
    · rintro ⟨a, _, ha, ⟨b, c, hb, hc, rfl⟩, rfl⟩
      exact ⟨a + b, c, ⟨a, b, ha, hb, rfl⟩, hc, Int.add_assoc a b c⟩
    · rintro ⟨_, c, ⟨a, b, ha, hb, rfl⟩, hc, rfl⟩
      exact ⟨a, b + c, ha, ⟨b, c, hb, hc, rfl⟩, (Int.add_assoc a b c).symm⟩

theorem total?_map {f : Expr → Expr} (hf : ∀ e ∈ es, ∀ v, e.value? y = some v → (f e).value? x = some v)
    (h : total? y es = some v) : total? x (es.map f) = some v := by
  induction es generalizing v with
  | nil => exact h
  | cons e es ih =>
    obtain ⟨a, b, ha, hb, rfl⟩ := total?_cons_eq_some_iff.mp h
    have hrest := ih (fun e he => hf e (List.mem_cons_of_mem _ he)) hb
    exact total?_cons_eq_some_iff.mpr ⟨a, b, hf e List.mem_cons_self a ha, hrest, rfl⟩

theorem total?_perm (hperm : es.Perm fs) (h : total? x es = some v) : total? x fs = some v := by
  induction hperm generalizing v with
  | nil => exact h
  | cons e _ ih =>
    obtain ⟨a, b, ha, hb, rfl⟩ := total?_cons_eq_some_iff.mp h
    exact total?_cons_eq_some_iff.mpr ⟨a, b, ha, ih hb, rfl⟩
  | swap e e' es =>
    obtain ⟨a, _, ha, hrest, rfl⟩ := total?_cons_eq_some_iff.mp h
    obtain ⟨b, c, hb, hc, rfl⟩ := total?_cons_eq_some_iff.mp hrest
    exact total?_cons_eq_some_iff.mpr
      ⟨b, a + c, hb, total?_cons_eq_some_iff.mpr ⟨a, c, ha, hc, rfl⟩, by omega⟩
  | trans _ _ ih ih' => exact ih' (ih h)

theorem total?_of_isSumOf (h : e.IsSumOf es) (hv : e.value? x = some v) : total? x es = some v := by
  induction h generalizing v with
  | term _ => exact total?_cons_eq_some_iff.mpr ⟨v, 0, hv, rfl, Int.add_zero v⟩
  | sum _ _ hl hr =>
    obtain ⟨a, b, ha, hb, hsum⟩ := value?_binary_eq_some_iff.mp hv
    exact total?_append_eq_some_iff.mpr ⟨a, b, hl ha, hr hb, Option.some.inj hsum⟩

end AffineSearch.Expr
