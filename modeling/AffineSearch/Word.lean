/-! Arithmetic on 64-bit words. The coefficients have a sign, and an operation on them yields a result only where
the exact one is a word. Numbers of variables have none, and a sum of them goes on from 0 behind the largest. -/
namespace AffineSearch.Word

/-- The word of a given value. -/
def ofInt? (v : Int) : Option Int64 :=
  if -0x8000000000000000 ≤ v ∧ v < 0x8000000000000000 then some (Int64.ofInt v) else none

def add? (a b : Int64) : Option Int64 := ofInt? (a.toInt + b.toInt)

def mul? (a b : Int64) : Option Int64 := ofInt? (a.toInt * b.toInt)

/-- The quotient toward zero. The least word divided by -1 is the one quotient of words that is not a word. -/
def truncDiv? (a b : Int64) : Option Int64 :=
  if b = 0 ∨ (a = Int64.minValue ∧ b = -1) then none else some (a / b)

/-- An inexact quotient of opposite signs lies one below its truncation. -/
def floorDiv? (a b : Int64) : Option Int64 :=
  (truncDiv? a b).map fun q => if a % b ≠ 0 ∧ ¬(a < 0 ↔ b < 0) then q - 1 else q

/-- An inexact quotient of equal signs lies one above its truncation. -/
def ceilDiv? (a b : Int64) : Option Int64 :=
  (truncDiv? a b).map fun q => if a % b ≠ 0 ∧ (a < 0 ↔ b < 0) then q + 1 else q

/-- The remainder in `[0, b)`, for a positive modulus only. -/
def mod? (a b : Int64) : Option Int64 :=
  if 0 < b then
    let r := a % b
    some (if r < 0 then r + b else r)
  else none

/-- The sum of two numbers without a sign, as a word. -/
def wrappingAdd (a b : Nat) : Nat := (a.toUInt64 + b.toUInt64).toNat

/-- The number of places for a shift, which is half a word. -/
def places? (n : Nat) : Option UInt32 :=
  if n < 0x100000000 then some n.toUInt32 else none

/-- A word cannot be shifted by all of its 64 digits. -/
def shiftLeft? (a : UInt64) (places : UInt32) : Option UInt64 :=
  if places < 64 then some (a <<< places.toUInt64) else none

theorem wrappingAdd_eq_mod (a b : Nat) : wrappingAdd a b = (a + b) % 0x10000000000000000 := by
  unfold wrappingAdd
  rw [UInt64.toNat_add, Nat.toUInt64_eq, Nat.toUInt64_eq, UInt64.toNat_ofNat', UInt64.toNat_ofNat', ← Nat.add_mod]

theorem wrappingAdd_of_lt {a b : Nat} (h : a + b < 0x10000000000000000) : wrappingAdd a b = a + b := by
  rw [wrappingAdd_eq_mod, Nat.mod_eq_of_lt h]

end AffineSearch.Word
