/-! What bounds a search, and its settings as text. -/
namespace AffineSearch

/-- The node budget counts the root. Without one the search is bounded by depth alone. -/
structure Limits where
  maxDepth : Nat := 4
  maxNodes : Option Nat := none
  firstMatch : Bool := false
  deriving DecidableEq

namespace Limits

/-- Reads a decimal count below 2^64: ASCII digits, with at most one plus sign in front. -/
def readCount? (t : String) : Option Nat :=
  let digits := match t.toList with
    | '+' :: rest => rest
    | cs => cs
  if digits ≠ [] ∧ digits.all (·.isDigit) then
    let n := digits.foldl (fun n c => 10 * n + (c.toNat - '0'.toNat)) 0
    if n < 0x10000000000000000 then some n else none
  else none

/-- Settings that cannot be read count as absent, and so does a budget of 0. The first match is
wanted as soon as that setting is present. -/
def ofSettings (maxDepth maxNodes firstMatch : Option String) : Limits where
  maxDepth := (maxDepth.bind readCount?).getD ({} : Limits).maxDepth
  maxNodes := (maxNodes.bind readCount?).filter (0 < ·)
  firstMatch := firstMatch.isSome

end Limits
end AffineSearch
