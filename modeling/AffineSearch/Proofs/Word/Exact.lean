import AffineSearch.Expr.Value
import AffineSearch.Word

/-! Word arithmetic is exact. Each operation yields the word that is the operator's value, where there is one. -/
namespace AffineSearch

namespace Word
variable {a b q w : Int64}

theorem toInt_bounds (w : Int64) : -0x8000000000000000 ≤ w.toInt ∧ w.toInt < 0x8000000000000000 :=
  ⟨w.le_toInt, w.toInt_lt⟩

theorem toInt_eq_zero_iff : w.toInt = 0 ↔ w = 0 := by
  rw [← Int64.toInt_inj, Int64.toInt_zero]

theorem ofInt?_eq_some_iff {v : Int} : ofInt? v = some w ↔ v = w.toInt := by
  unfold ofInt?
  split
  · next h =>
    have hv : (Int64.ofInt v).toInt = v := Int64.toInt_ofInt_of_le h.1 h.2
    rw [Option.some.injEq, ← Int64.toInt_inj, hv]
  · next h =>
    have hw := toInt_bounds w
    simp only [reduceCtorEq, false_iff]
    intro hv
    exact h (hv ▸ hw)

/-- No quotient of words but one is too large for a word. -/
theorem truncDiv?_eq_some_iff :
    truncDiv? a b = some q ↔ b.toInt ≠ 0 ∧ a.toInt.tdiv b.toInt = q.toInt := by
  unfold truncDiv?
  have hq := toInt_bounds q
  split
  · next h =>
    rcases h with rfl | ⟨rfl, rfl⟩
    · simp
    · have hdiv : Int64.minValue.toInt.tdiv (-1 : Int64).toInt = 0x8000000000000000 := by decide
      simp only [reduceCtorEq, hdiv, false_iff]
      omega
  · next h =>
    have hdiv : (a / b).toInt = a.toInt.tdiv b.toInt := by
      by_cases ha : a = Int64.minValue
      · exact Int64.toInt_div_of_ne_right a b fun hb => h (Or.inr ⟨ha, hb⟩)
      · exact Int64.toInt_div_of_ne_left a b ha
    have hb : b.toInt ≠ 0 := fun h0 => h (Or.inl (toInt_eq_zero_iff.mp h0))
    rw [Option.some.injEq, ← Int64.toInt_inj, hdiv, and_iff_right hb]

theorem fdiv_eq_tdiv_add {m n : Int} (hn : n ≠ 0) :
    m.fdiv n = m.tdiv n + if m.tmod n ≠ 0 ∧ ¬(m < 0 ↔ n < 0) then -1 else 0 := by
  have hdvd : n ∣ m ↔ m.tmod n = 0 := Int.dvd_iff_tmod_eq_zero
  rw [Int.fdiv_eq_tdiv]
  simp only [hdvd]
  rcases Int.lt_or_gt_of_ne hn with h | h
  · have hsign : n.sign = -1 := Int.sign_eq_neg_one_of_neg h
    split <;> split <;> omega
  · have hsign : n.sign = 1 := Int.sign_eq_one_of_pos h
    split <;> split <;> omega

theorem neg_fdiv_neg_eq_tdiv_add {m n : Int} (hn : n ≠ 0) :
    -(-m).fdiv n = m.tdiv n + if m.tmod n ≠ 0 ∧ (m < 0 ↔ n < 0) then 1 else 0 := by
  have hzero : m = 0 → m.tmod n = 0 := by rintro rfl; simp
  rw [fdiv_eq_tdiv_add hn, Int.neg_tdiv, Int.neg_tmod]
  split <;> split <;> omega

/-- An inexact quotient is at most half the dividend, so a word is left on either side of it. -/
theorem natAbs_tdiv_of_inexact {m n : Int} (h : m.tmod n ≠ 0) (hn : n ≠ 0) :
    2 * (m.tdiv n).natAbs ≤ m.natAbs := by
  have hone : n.natAbs ≠ 1 := by
    intro h1
    have hdvd : n ∣ m := Int.natAbs_dvd_natAbs.mp (h1 ▸ Nat.one_dvd _)
    exact h (Int.tmod_eq_zero_of_dvd hdvd)
  have htwo : 2 ≤ n.natAbs := by omega
  have hdiv : (m.tdiv n).natAbs = m.natAbs / n.natAbs := Int.natAbs_tdiv m n
  have hle : m.natAbs / n.natAbs ≤ m.natAbs / 2 := Nat.div_le_div_left htwo Nat.two_pos
  omega

theorem toInt_add_of_fits {c : Int64} (hlo : -0x8000000000000000 ≤ q.toInt + c.toInt)
    (hhi : q.toInt + c.toInt < 0x8000000000000000) : (q + c).toInt = q.toInt + c.toInt := by
  have hadd : q + c = Int64.ofInt (q.toInt + c.toInt) := by simp [Int64.ofInt_add]
  rw [hadd]
  exact Int64.toInt_ofInt_of_le hlo hhi

/-- The words on either side of an inexact quotient. -/
theorem toInt_add_of_inexact {c : Int64} (hc : c.toInt = 1 ∨ c.toInt = -1)
    (hq : truncDiv? a b = some q) (hinexact : a.toInt.tmod b.toInt ≠ 0) :
    (q + c).toInt = q.toInt + c.toInt := by
  obtain ⟨hb, hq⟩ := truncDiv?_eq_some_iff.mp hq
  have ha := toInt_bounds a
  have hhalf := natAbs_tdiv_of_inexact hinexact hb
  exact toInt_add_of_fits (by omega) (by omega)

/-- Floor and ceiling are the truncated quotient, moved by one where it is inexact. -/
theorem truncDiv?_map_eq_some_iff {c : Int64} {moves : Prop} [Decidable moves]
    (hc : c.toInt = 1 ∨ c.toInt = -1) :
    ((truncDiv? a b).map fun q => if a % b ≠ 0 ∧ moves then q + c else q) = some w ↔
      b.toInt ≠ 0 ∧ a.toInt.tdiv b.toInt +
        (if a.toInt.tmod b.toInt ≠ 0 ∧ moves then c.toInt else 0) = w.toInt := by
  have hmod : a % b ≠ 0 ↔ a.toInt.tmod b.toInt ≠ 0 := by
    rw [ne_eq, ← toInt_eq_zero_iff, Int64.toInt_mod]
  simp only [Option.map_eq_some_iff, hmod]
  by_cases hm : a.toInt.tmod b.toInt ≠ 0 ∧ moves
  · rw [if_pos hm]
    constructor
    · intro h
      obtain ⟨q, hq, hw⟩ := h
      rw [if_pos hm] at hw
      obtain ⟨hb, hdiv⟩ := truncDiv?_eq_some_iff.mp hq
      rw [← hw, toInt_add_of_inexact hc hq hm.1, hdiv]
      exact ⟨hb, rfl⟩
    · intro h
      obtain ⟨hb, hw⟩ := h
      have ha := toInt_bounds a
      have hhalf := natAbs_tdiv_of_inexact hm.1 hb
      have hdiv : (Int64.ofInt (a.toInt.tdiv b.toInt)).toInt = a.toInt.tdiv b.toInt :=
        Int64.toInt_ofInt_of_le (by omega) (by omega)
      have hq := truncDiv?_eq_some_iff.mpr ⟨hb, hdiv.symm⟩
      refine ⟨_, hq, ?_⟩
      rw [if_pos hm, ← Int64.toInt_inj, toInt_add_of_inexact hc hq hm.1, hdiv, hw]
  · simp only [if_neg hm, Int.add_zero, truncDiv?_eq_some_iff, exists_eq_right]

theorem floorDiv?_eq_some_iff :
    floorDiv? a b = some w ↔ b.toInt ≠ 0 ∧ a.toInt.fdiv b.toInt = w.toInt := by
  have hone : (-1 : Int64).toInt = -1 := by decide
  unfold floorDiv?
  simp only [Int64.sub_eq_add_neg]
  rw [truncDiv?_map_eq_some_iff (Or.inr hone), hone]
  apply and_congr_right
  intro hb
  rw [fdiv_eq_tdiv_add hb]
  simp only [Int64.lt_iff_toInt_lt, Int64.toInt_zero]

theorem ceilDiv?_eq_some_iff :
    ceilDiv? a b = some w ↔ b.toInt ≠ 0 ∧ -(-a.toInt).fdiv b.toInt = w.toInt := by
  unfold ceilDiv?
  rw [truncDiv?_map_eq_some_iff (Or.inl Int64.toInt_one), Int64.toInt_one]
  apply and_congr_right
  intro hb
  rw [neg_fdiv_neg_eq_tdiv_add hb]
  simp only [Int64.lt_iff_toInt_lt, Int64.toInt_zero]

theorem emod_eq_ite_tmod {m n : Int} (hn : 0 < n) :
    m % n = if m.tmod n < 0 then m.tmod n + n else m.tmod n := by
  have hlo := Int.lt_tmod_of_pos m hn
  have hhi := Int.tmod_lt_of_pos m hn
  have hsame : m.tmod n % n = m % n := by rw [Int.tmod_def, Int.sub_mul_emod_self_left]
  split
  · rw [← hsame, ← Int.add_emod_right, Int.emod_eq_of_lt (by omega) (by omega)]
  · rw [← hsame, Int.emod_eq_of_lt (by omega) hhi]

theorem mod?_eq_some_iff : mod? a b = some w ↔ 0 < b.toInt ∧ a.toInt % b.toInt = w.toInt := by
  unfold mod?
  have hpos : 0 < b ↔ 0 < b.toInt := by rw [Int64.lt_iff_toInt_lt, Int64.toInt_zero]
  have hneg : a % b < 0 ↔ a.toInt.tmod b.toInt < 0 := by
    rw [Int64.lt_iff_toInt_lt, Int64.toInt_mod, Int64.toInt_zero]
  have hb := toInt_bounds b
  simp only [hpos, hneg]
  split
  · next h =>
    have hlo := Int.lt_tmod_of_pos a.toInt h
    rw [emod_eq_ite_tmod h, and_iff_right h, Option.some.injEq, ← Int64.toInt_inj]
    split
    · rw [toInt_add_of_fits, Int64.toInt_mod] <;> rw [Int64.toInt_mod] <;> omega
    · rw [Int64.toInt_mod]
  · next h => simp [h]

/-- All words that a division passes through are the exact ones. -/
structure DividesExactly (a b : Int64) : Prop where
  quotient : ∀ q, truncDiv? a b = some q → b.toInt ≠ 0 ∧ q.toInt = a.toInt.tdiv b.toInt ∧
    (a % b).toInt = a.toInt.tmod b.toInt
  moved : ∀ q, truncDiv? a b = some q → a % b ≠ 0 →
    (q - 1).toInt = q.toInt - 1 ∧ (q + 1).toInt = q.toInt + 1
  remainder : 0 < b → (∃ q, truncDiv? a b = some q) ∧
    (a % b < 0 → (a % b + b).toInt = (a % b).toInt + b.toInt)

theorem dividesExactly (a b : Int64) : DividesExactly a b where
  quotient := by
    intro q hq
    obtain ⟨hb, hdiv⟩ := truncDiv?_eq_some_iff.mp hq
    exact ⟨hb, hdiv.symm, Int64.toInt_mod a b⟩
  moved := by
    intro q hq hinexact
    have hmod : a.toInt.tmod b.toInt ≠ 0 := by
      rw [← Int64.toInt_mod, ne_eq, toInt_eq_zero_iff]
      exact hinexact
    have hminus : (-1 : Int64).toInt = -1 := by decide
    constructor
    · rw [Int64.sub_eq_add_neg, toInt_add_of_inexact (Or.inr hminus) hq hmod, hminus]
      rfl
    · rw [toInt_add_of_inexact (Or.inl Int64.toInt_one) hq hmod, Int64.toInt_one]
  remainder := by
    intro hb
    have hpos : 0 < b.toInt := by rwa [Int64.lt_iff_toInt_lt, Int64.toInt_zero] at hb
    constructor
    · have hguard : ¬(b = 0 ∨ (a = Int64.minValue ∧ b = -1)) := by
        rintro (rfl | ⟨-, rfl⟩)
        · exact absurd hpos (by decide)
        · exact absurd hpos (by decide)
      exact ⟨a / b, if_neg hguard⟩
    · intro hneg
      have hrem : (a % b).toInt < 0 := by rwa [Int64.lt_iff_toInt_lt, Int64.toInt_zero] at hneg
      have hlo := toInt_bounds (a % b)
      have hhi := toInt_bounds b
      exact toInt_add_of_fits (by omega) (by omega)

end Word

/-- The operation that folding performs on two constants. -/
def Op.onWords? : Op → Int64 → Int64 → Option Int64
  | .add => Word.add?
  | .mul => Word.mul?
  | .mod => Word.mod?
  | .floorDiv => Word.floorDiv?
  | .ceilDiv => Word.ceilDiv?

theorem Op.onWords?_eq_some_iff {op : Op} {a b w : Int64} :
    op.onWords? a b = some w ↔ op.value? a.toInt b.toInt = some w.toInt := by
  cases op with
  | add => simp [onWords?, value?, Word.add?, Word.ofInt?_eq_some_iff]
  | mul => simp [onWords?, value?, Word.mul?, Word.ofInt?_eq_some_iff]
  | mod => simp [onWords?, value?, Word.mod?_eq_some_iff]
  | floorDiv => simp [onWords?, value?, Word.floorDiv?_eq_some_iff]
  | ceilDiv => simp [onWords?, value?, Word.ceilDiv?_eq_some_iff]

end AffineSearch
