import AffineSearch.Proofs.Expr.Combine
import Mathlib.Data.Rat.Floor

/-! Operations on two constants. They fold to the exact value where that is a word and stay as they are
everywhere else. -/
namespace AffineSearch

/-- The value of an operation in exact arithmetic. Quotients are the ratio rounded down or up. -/
def Op.IsValue : Op → Int → Int → Int → Prop
  | .add, a, b, v => v = a + b
  | .mul, a, b, v => v = a * b
  | .mod, a, b, v => 0 ≤ v ∧ v < b ∧ b ∣ a - v
  | .floorDiv, a, b, v => b ≠ 0 ∧ v = ⌊(a / b : ℚ)⌋
  | .ceilDiv, a, b, v => b ≠ 0 ∧ v = ⌈(a / b : ℚ)⌉

theorem floor_ratio (a b : Int) : ⌊(a / b : ℚ)⌋ = a.fdiv b := by
  have hnonneg : ∀ m n : Int, 0 ≤ n → ⌊(m / n : ℚ)⌋ = m.fdiv n := by
    intro m n hn
    rw [Int.floor_div_cast_of_nonneg hn, Int.floor_intCast, Int.fdiv_eq_ediv_of_nonneg m hn]
  rcases Int.le_total 0 b with hb | hb
  · exact hnonneg a b hb
  · have hneg := hnonneg (-a) (-b) (Int.neg_nonneg_of_nonpos hb)
    rw [Int.neg_fdiv_neg, Int.cast_neg, Int.cast_neg, neg_div_neg_eq] at hneg
    exact hneg

theorem ceil_ratio (a b : Int) : ⌈(a / b : ℚ)⌉ = -(-a).fdiv b := by
  rw [← floor_ratio, Int.cast_neg, neg_div, Int.floor_neg, neg_neg]

theorem emod_eq_iff_of_pos {a b v : Int} (hb : 0 < b) : a % b = v ↔ 0 ≤ v ∧ v < b ∧ b ∣ a - v := by
  constructor
  · intro h
    have hlo := Int.emod_nonneg a (Int.ne_of_gt hb)
    have hhi := Int.emod_lt_of_pos a hb
    have hdvd : b ∣ a - a % b := Int.dvd_self_sub_emod
    rw [h] at hlo hhi hdvd
    exact ⟨hlo, hhi, hdvd⟩
  · intro h
    obtain ⟨hlo, hhi, hdvd⟩ := h
    have hsame : a % b = v % b :=
      Int.emod_eq_emod_iff_emod_sub_eq_zero.mpr (Int.emod_eq_zero_of_dvd hdvd)
    rw [hsame, Int.emod_eq_of_lt hlo hhi]

namespace Op
variable {op : Op} {a b v : Int}

theorem value?_eq_some_iff_isValue : op.value? a b = some v ↔ op.IsValue a b v := by
  cases op with
  | add => simp [value?, IsValue, eq_comm]
  | mul => simp [value?, IsValue, eq_comm]
  | mod =>
    by_cases hb : 0 < b
    · simp [value?, IsValue, hb, emod_eq_iff_of_pos]
    · simp only [value?, IsValue, hb, if_false, reduceCtorEq, false_iff]
      omega
  | floorDiv => simp [value?, IsValue, floor_ratio, eq_comm]
  | ceilDiv => simp [value?, IsValue, ceil_ratio, eq_comm]

end Op

namespace Expr
variable {op : Op} {a b w : Int64}

theorem combine_constants_eq_const_iff :
    combine op (const a) (const b) = const w ↔ op.onWords? a b = some w := by
  rw [combine_const_const]
  cases op.onWords? a b <;> simp

theorem combine_constants_eq_binary_iff :
    combine op (const a) (const b) = binary op (const a) (const b) ↔ op.onWords? a b = none := by
  rw [combine_const_const]
  cases op.onWords? a b <;> simp

/-- The value of an operation on words is a word exactly where there is a word that the operation performs. -/
theorem isValue_and_fitsWord_iff {v : Int} :
    op.IsValue a.toInt b.toInt v ∧ FitsWord v ↔ ∃ w : Int64, w.toInt = v ∧ op.onWords? a b = some w := by
  constructor
  · intro h
    obtain ⟨hv, hfits⟩ := h
    have hw : (Int64.ofInt v).toInt = v := Int64.toInt_ofInt_of_le hfits.1 hfits.2
    refine ⟨Int64.ofInt v, hw, ?_⟩
    rw [Op.onWords?_eq_some_iff, hw]
    exact Op.value?_eq_some_iff_isValue.mpr hv
  · intro h
    obtain ⟨w, rfl, hw⟩ := h
    rw [Op.onWords?_eq_some_iff] at hw
    exact ⟨Op.value?_eq_some_iff_isValue.mp hw, Word.toInt_bounds w⟩

/-- Two constants fold to the value of their operation, if it has one and that is a word, and are the plain
operation if not. No word overflows on the way of a division. -/
theorem constants_fold_exactly (op : Op) (a b : Int64) :
    (∀ v : Int, (∃ w : Int64, w.toInt = v ∧ combine op (const a) (const b) = const w) ↔
      op.IsValue a.toInt b.toInt v ∧ FitsWord v) ∧
    (combine op (const a) (const b) = binary op (const a) (const b) ↔
      ¬∃ v, op.IsValue a.toInt b.toInt v ∧ FitsWord v) ∧
    Word.DividesExactly a b := by
  refine ⟨?folded, ?plain, Word.dividesExactly a b⟩
  case folded =>
    intro v
    simp only [isValue_and_fitsWord_iff, combine_constants_eq_const_iff]
  case plain =>
    rw [combine_constants_eq_binary_iff, Option.eq_none_iff_forall_ne_some]
    simp [isValue_and_fitsWord_iff]

/-- The least word divided by -1 is one too large for a word. Divided by 3 it is inexact and moves up. -/
example : let least := const Int64.minValue
    combine .floorDiv least (const (-1)) = binary .floorDiv least (const (-1)) ∧
      combine .ceilDiv least (const 3) = const (-3074457345618258602) := by
  decide

end Expr
end AffineSearch
