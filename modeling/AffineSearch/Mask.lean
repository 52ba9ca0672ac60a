import AffineSearch.Word

/-! Selections among the operands of a pattern, and their enumeration. -/
namespace AffineSearch

/-- One flag per operand. Operands past the last flag are not selected. -/
structure Mask where
  bits : List Bool
  deriving DecidableEq

namespace Mask

def full (n : Nat) : Mask := ⟨List.replicate n true⟩

def clear (n : Nat) : Mask := ⟨List.replicate n false⟩

/-- Selects those of `n` operands that the list names. -/
def ofIndices (n : Nat) (indices : List Nat) : Mask :=
  ⟨(List.range n).map fun i => decide (i ∈ indices)⟩

def isSelected (m : Mask) (operand : Nat) : Bool := m.bits.getD operand false

def selectsNone (m : Mask) : Bool := !m.bits.any id

/-- Whether some operand below `n` is selected. -/
def selectsBelow (m : Mask) (n : Nat) : Bool := (m.bits.take n).any id

/-- The selected operands in ascending order. -/
def selected (m : Mask) : List Nat := (m.bits.zipIdx.filter (·.1)).map (·.2)

def text (m : Mask) : String := String.ofList (m.bits.map fun b => if b then '1' else '0')

/-- The number `v` in `n` binary digits, the most significant for operand 0. -/
def ofNumber (n v : Nat) : Mask := ⟨(List.range n).map fun i => v.testBit (n - 1 - i)⟩

/-- One more than the largest number of `n` binary digits, or 0 if a word does not hold it. -/
def numberBound (n : Nat) : Nat := (((Word.places? n).bind (Word.shiftLeft? 1)).getD 0).toNat

/-- The non-empty selections as numbers count down from the full one. -/
def nonEmptySubsets (n : Nat) : List Mask :=
  (List.range' 1 (numberBound n - 1)).reverse.map (ofNumber n)

theorem numberBound_eq (n : Nat) : numberBound n = if n < 64 then 1 <<< n else 0 := by
  unfold numberBound Word.places?
  split
  · next hfits =>
    have hn : n.toUInt32.toNat = n := by
      rw [Nat.toUInt32_eq, UInt32.toNat_ofNat', Nat.mod_eq_of_lt hfits]
    have hless : n.toUInt32 < 64 ↔ n < 64 := by
      rw [UInt32.lt_iff_toNat_lt, hn]
      exact Iff.rfl
    rw [Option.bind_some, Word.shiftLeft?]
    simp only [hless]
    split
    · next h =>
      have hbound : 1 <<< n < 0x10000000000000000 := by
        rw [Nat.one_shiftLeft]
        exact Nat.pow_lt_pow_right Nat.one_lt_two h
      rw [Option.getD_some, UInt64.toNat_shiftLeft, UInt32.toNat_toUInt64, hn, Nat.mod_eq_of_lt h]
      exact Nat.mod_eq_of_lt hbound
    · rfl
  · next hfits =>
    rw [if_neg (by omega)]
    rfl

/-- How many non-empty selections are enumerated. Sets of 64 operands or more have none. -/
def subsetCount (n : Nat) : Nat := if n < 64 then (1 <<< n) - 1 else 0

/-- The enumeration by position. -/
def nthSubset (n k : Nat) : Mask := ofNumber n ((1 <<< n) - 1 - k)

theorem nonEmptySubsets_eq (n : Nat) : nonEmptySubsets n = (List.range (subsetCount n)).map (nthSubset n) := by
  unfold nonEmptySubsets subsetCount
  rw [numberBound_eq]
  split
  · rw [List.reverse_range', List.map_map]
    apply List.map_congr_left
    intro k _
    rw [Function.comp_apply, nthSubset, Nat.add_sub_cancel_left]
  · rfl

/-- Part of the enumeration, computed without what stands before or after it. -/
def subsetWindow (n skip take : Nat) : List Mask :=
  (List.range' skip (min take (subsetCount n - skip))).map (nthSubset n)

theorem subsetWindow_eq (n skip take : Nat) :
    subsetWindow n skip take = ((nonEmptySubsets n).drop skip).take take := by
  simp only [subsetWindow, nonEmptySubsets_eq, ← List.map_drop, ← List.map_take, List.range_eq_range']
  congr 1
  apply List.ext_getElem <;> simp

end Mask
end AffineSearch
