import AffineSearch.Mask
import Mathlib.Data.List.Nodup
import Mathlib.Data.Nat.Init

/-! The enumerated selections are different masks, and there is one for every non-empty selection. -/
namespace AffineSearch.Mask

theorem isSelected_ofNumber {n v i : Nat} (h : i < n) :
    (ofNumber n v).isSelected i = v.testBit (n - 1 - i) := by
  simp [isSelected, ofNumber, List.getD_eq_getElem?_getD, h]

theorem isSelected_ofIndices {n i : Nat} {indices : List Nat} (h : i < n) :
    (ofIndices n indices).isSelected i = decide (i ∈ indices) := by
  simp [isSelected, ofIndices, h]

theorem selectsBelow_iff {m : Mask} {n : Nat} :
    m.selectsBelow n = true ↔ ∃ i < n, m.isSelected i = true := by
  simp only [selectsBelow, List.any_eq_true, id_eq, List.mem_take_iff_getElem, isSelected,
    List.getD_eq_getElem?_getD]
  constructor
  · intro h
    obtain ⟨b, ⟨i, hi, rfl⟩, hb⟩ := h
    have hlen : i < m.bits.length := by omega
    refine ⟨i, by omega, ?_⟩
    rw [List.getElem?_eq_getElem hlen]
    exact hb
  · intro h
    obtain ⟨i, hi, hb⟩ := h
    cases hg : m.bits[i]? with
    | none => simp [hg] at hb
    | some b =>
      obtain ⟨hl, hbit⟩ := List.getElem?_eq_some_iff.mp hg
      exact ⟨b, ⟨i, by omega, hbit⟩, by simpa [hg] using hb⟩

/-- Digits from `n` on are 0 in both numbers, so the mask has all that differ. -/
theorem ofNumber_injective {n v w : Nat} (hv : v < 1 <<< n) (hw : w < 1 <<< n)
    (h : ofNumber n v = ofNumber n w) : v = w := by
  rw [Nat.one_shiftLeft] at hv hw
  apply Nat.eq_of_testBit_eq
  intro k
  by_cases hk : k < n
  · have hi : n - 1 - k < n := by omega
    have hb := congrArg (·.isSelected (n - 1 - k)) h
    rw [isSelected_ofNumber hi, isSelected_ofNumber hi] at hb
    rwa [show n - 1 - (n - 1 - k) = k by omega] at hb
  · have hn : n ≤ k := by omega
    have hle := Nat.pow_le_pow_right Nat.two_pos hn
    have hvk := Nat.lt_of_lt_of_le hv hle
    have hwk := Nat.lt_of_lt_of_le hw hle
    rw [Nat.testBit_lt_two_pow hvk, Nat.testBit_lt_two_pow hwk]

theorem exists_ofNumber (m : Mask) (n : Nat) :
    ∃ v < 1 <<< n, ∀ i < n, (ofNumber n v).isSelected i = m.isSelected i := by
  refine ⟨Nat.ofBits fun k : Fin n => m.isSelected (n - 1 - k), ?_, ?_⟩
  · rw [Nat.one_shiftLeft]
    exact Nat.ofBits_lt_two_pow _
  · intro i hi
    rw [isSelected_ofNumber hi, Nat.testBit_ofBits_lt _ _ (by omega)]
    rw [show n - 1 - (n - 1 - i) = i by omega]

theorem numberBound_le (n : Nat) : numberBound n ≤ 1 <<< n := by
  rw [numberBound_eq]
  split
  · exact Nat.le_refl _
  · exact Nat.zero_le _

theorem nonEmptySubsets_nodup (n : Nat) : (nonEmptySubsets n).Nodup := by
  have hbound := numberBound_le n
  have hnumbers : (List.range' 1 (numberBound n - 1)).reverse.Nodup :=
    List.nodup_reverse.mpr List.nodup_range'
  unfold nonEmptySubsets
  refine List.Nodup.map_on ?_ hnumbers
  intro v hv w hw h
  rw [List.mem_reverse, List.mem_range'_1] at hv hw
  exact ofNumber_injective (by omega) (by omega) h

theorem mem_nonEmptySubsets {n : Nat} (hn : n < 64) {m : Mask} :
    m ∈ nonEmptySubsets n ↔ ∃ v, 0 < v ∧ v < 1 <<< n ∧ m = ofNumber n v := by
  have hbound : numberBound n = 1 <<< n := by rw [numberBound_eq, if_pos hn]
  simp only [nonEmptySubsets, hbound, List.mem_map, List.mem_reverse, List.mem_range'_1]
  constructor
  · intro h
    obtain ⟨v, ⟨h0, hv⟩, rfl⟩ := h
    exact ⟨v, h0, by omega, rfl⟩
  · intro h
    obtain ⟨v, h0, hv, rfl⟩ := h
    exact ⟨v, ⟨h0, by omega⟩, rfl⟩

/-- A selection of existing operands counts only below `n`, where some enumerated mask agrees with it. -/
theorem exists_mem_nonEmptySubsets {n : Nat} (hn : n < 64) {m : Mask} (hm : m.selectsBelow n = true) :
    ∃ m' ∈ nonEmptySubsets n, ∀ i < n, m'.isSelected i = m.isSelected i := by
  obtain ⟨v, hv, hb⟩ := exists_ofNumber m n
  refine ⟨ofNumber n v, (mem_nonEmptySubsets hn).mpr ⟨v, ?_, hv, rfl⟩, hb⟩
  obtain ⟨i, hi, hs⟩ := selectsBelow_iff.mp hm
  have hbit := hb i hi
  rw [isSelected_ofNumber hi, hs] at hbit
  apply Nat.pos_of_ne_zero
  intro hzero
  rw [hzero, Nat.zero_testBit] at hbit
  cases hbit

end AffineSearch.Mask
