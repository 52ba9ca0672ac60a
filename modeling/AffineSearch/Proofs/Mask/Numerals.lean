import AffineSearch.Proofs.Mask.Subsets
import Mathlib.Algebra.Order.Ring.Nat
import Mathlib.Data.List.Induction

/-! Masks as binary numerals, with the first operand as the most significant digit. The enumerated selections
count down from the full one and leave none out. -/
namespace AffineSearch.Mask

/-- The number whose binary digits are the flags. -/
def number (m : Mask) : Nat := m.bits.foldl (fun v b => 2 * v + b.toNat) 0

theorem number_concat (bits : List Bool) (b : Bool) :
    number ⟨bits ++ [b]⟩ = 2 * number ⟨bits⟩ + b.toNat := by
  simp [number]

theorem number_lt (m : Mask) : m.number < 2 ^ m.bits.length := by
  obtain ⟨bits⟩ := m
  induction bits using List.reverseRecOn with
  | nil => simp [number]
  | append_singleton bits b ih =>
    have hb : b.toNat ≤ 1 := Bool.toNat_le b
    rw [number_concat, List.length_append, List.length_singleton, Nat.pow_succ]
    dsimp only at ih
    omega

theorem number_eq_zero_iff (m : Mask) : m.number = 0 ↔ m.selectsNone = true := by
  obtain ⟨bits⟩ := m
  induction bits using List.reverseRecOn with
  | nil => simp [number, selectsNone]
  | append_singleton bits b ih =>
    have hnumber : number ⟨bits ++ [b]⟩ = 0 ↔ number ⟨bits⟩ = 0 ∧ b = false := by
      rw [number_concat]
      cases b <;> simp
    rw [hnumber, ih]
    simp [selectsNone]

@[simp] theorem length_ofNumber (n v : Nat) : (ofNumber n v).bits.length = n := by
  simp [ofNumber]

/-- The last digit is the parity, the others are those of the half. -/
theorem ofNumber_succ (n v : Nat) :
    ofNumber (n + 1) v = ⟨(ofNumber n (v / 2)).bits ++ [v.testBit 0]⟩ := by
  have hhalf : ∀ i ∈ List.range n, v.testBit (n + 1 - 1 - i) = (v / 2).testBit (n - 1 - i) := by
    intro i hi
    have hlt : i < n := List.mem_range.mp hi
    rw [← Nat.testBit_succ, show n + 1 - 1 - i = n - 1 - i + 1 by omega]
  unfold ofNumber
  rw [List.range_succ, List.map_append, List.map_congr_left hhalf]
  simp

theorem number_ofNumber {n v : Nat} (hv : v < 2 ^ n) : (ofNumber n v).number = v := by
  induction n generalizing v with
  | zero =>
    have hzero : v = 0 := by simpa using hv
    simp [hzero, ofNumber, number]
  | succ n ih =>
    have hhalf : v / 2 < 2 ^ n := by omega
    have hbit : (v.testBit 0).toNat = v % 2 := by
      rw [Nat.toNat_testBit, Nat.pow_zero, Nat.div_one]
    rw [ofNumber_succ, number_concat, hbit, ih hhalf]
    omega

theorem ofNumber_number (m : Mask) : ofNumber m.bits.length m.number = m := by
  obtain ⟨bits⟩ := m
  induction bits using List.reverseRecOn with
  | nil => rfl
  | append_singleton bits b ih =>
    have hhalf : (2 * number ⟨bits⟩ + b.toNat) / 2 = number ⟨bits⟩ := by
      have hb : b.toNat ≤ 1 := Bool.toNat_le b
      omega
    have hbit : (2 * number ⟨bits⟩ + b.toNat).testBit 0 = b := by
      cases b <;> simp [Nat.testBit_zero]
    rw [number_concat, List.length_append, List.length_singleton, ofNumber_succ, hhalf, hbit, ih]

theorem mem_nonEmptySubsets_iff {n : Nat} (hn : n < 64) {m : Mask} :
    m ∈ nonEmptySubsets n ↔ m.bits.length = n ∧ m.selectsNone = false := by
  rw [mem_nonEmptySubsets hn, Nat.one_shiftLeft]
  constructor
  · intro h
    obtain ⟨v, hpos, hv, rfl⟩ := h
    have hne : (ofNumber n v).number ≠ 0 := by
      rw [number_ofNumber hv]
      omega
    refine ⟨length_ofNumber n v, ?_⟩
    simpa [number_eq_zero_iff] using hne
  · intro h
    obtain ⟨rfl, hsome⟩ := h
    have hne : m.number ≠ 0 := by simp [number_eq_zero_iff, hsome]
    exact ⟨m.number, by omega, m.number_lt, m.ofNumber_number.symm⟩

theorem getElem?_nonEmptySubsets {n k : Nat} (hn : n < 64) (hk : k < 2 ^ n - 1) :
    (nonEmptySubsets n)[k]? = some (ofNumber n (2 ^ n - 1 - k)) := by
  simp [nonEmptySubsets_eq, subsetCount, nthSubset, hn, hk, Nat.one_shiftLeft]

theorem pairwise_number_nonEmptySubsets (n : Nat) :
    (nonEmptySubsets n).Pairwise fun a b => b.number < a.number := by
  have hbound : numberBound n ≤ 2 ^ n := Nat.one_shiftLeft n ▸ numberBound_le n
  unfold nonEmptySubsets
  rw [List.pairwise_map, List.pairwise_reverse]
  refine List.Pairwise.imp_of_mem ?_ List.pairwise_lt_range'
  intro v w hv hw hlt
  rw [List.mem_range'_1] at hv hw
  rwa [number_ofNumber (by omega), number_ofNumber (by omega)]

/-- Below 64 operands, every mask of the right length that selects something is there once and no other
mask is. They come as numbers count down. -/
theorem nonEmptySubsets_count_down (n : Nat) :
    (n < 64 →
      (nonEmptySubsets n).length = 2 ^ n - 1 ∧
      (∀ k < 2 ^ n - 1, ∃ m, (nonEmptySubsets n)[k]? = some m ∧ m.bits.length = n ∧
        m.number = 2 ^ n - 1 - k) ∧
      (∀ m, (nonEmptySubsets n).count m =
        if m.bits.length = n ∧ m.selectsNone = false then 1 else 0) ∧
      (nonEmptySubsets n).Pairwise fun a b => b.number < a.number) ∧
    (64 ≤ n → nonEmptySubsets n = []) := by
  constructor
  · intro hn
    refine ⟨?_, ?_, ?_, pairwise_number_nonEmptySubsets n⟩
    · simp [nonEmptySubsets, numberBound_eq, hn, Nat.one_shiftLeft]
    · intro k hk
      have hv : 2 ^ n - 1 - k < 2 ^ n := by omega
      exact ⟨_, getElem?_nonEmptySubsets hn hk, length_ofNumber n _, number_ofNumber hv⟩
    · intro m
      rw [(nonEmptySubsets_nodup n).count]
      simp only [mem_nonEmptySubsets_iff hn]
  · intro hn
    have hbound : numberBound n = 0 := by rw [numberBound_eq, if_neg (Nat.not_lt.mpr hn)]
    rw [nonEmptySubsets, hbound]
    rfl

/-- The most operands that are enumerated, and one more. -/
theorem nonEmptySubsets_count_down_widest :
    (63 < 64 ∧ (nonEmptySubsets 63).length = 9223372036854775807 ∧
      1 < 2 ^ 63 - 1 ∧ (∃ m, (nonEmptySubsets 63)[1]? = some m ∧ m.bits.length = 63 ∧
        m.number = 9223372036854775806) ∧
      (nonEmptySubsets 63).count (full 63) = 1 ∧ (nonEmptySubsets 63).count (clear 63) = 0) ∧
    64 ≤ 64 ∧ nonEmptySubsets 64 = [] := by
  have h := (nonEmptySubsets_count_down 63).1 (by decide)
  refine ⟨⟨by decide, h.1, by decide, h.2.1 1 (by decide), ?_, ?_⟩, by decide,
    (nonEmptySubsets_count_down 64).2 (by decide)⟩
  · exact (h.2.2.1 (full 63)).trans (by decide)
  · exact (h.2.2.1 (clear 63)).trans (by decide)

end AffineSearch.Mask
