import AffineSearch.Proofs.IndexMap.Projection

/-! Projection by a table. It has an entry for each variable of the domain and is filled from the first to the last,
while a counter numbers those that survive. To look the variables up in it is to put what `projected` says. -/
namespace AffineSearch

/-- The entries of the listed variables, and the number after that of the last survivor. The first gets `next`. -/
def replacements (make : Nat → Expr) (positions : List Nat) : List Nat → Nat → List Expr × Nat
  | [], next => ([], next)
  | p :: rest, next =>
    if p ∈ positions then
      let (entries, kept) := replacements make positions rest next
      (.const 0 :: entries, kept)
    else
      let (entries, kept) := replacements make positions rest (next + 1)
      (make next :: entries, kept)

/-- The table of a whole domain, and how many of its variables survive. -/
def projection (make : Nat → Expr) (count : Nat) (positions : List Nat) : List Expr × Nat :=
  replacements make positions (List.range count) 0

variable {make : Nat → Expr} {p : Nat} {positions : List Nat}

theorem survivors_succ_of_mem (hp : p ∈ positions) : survivors (p + 1) positions = survivors p positions := by
  unfold survivors
  rw [List.range_succ, List.filter_append, List.filter_singleton]
  simp [hp]

theorem survivors_succ_of_notMem (hp : p ∉ positions) :
    survivors (p + 1) positions = survivors p positions ++ [p] := by
  unfold survivors
  rw [List.range_succ, List.filter_append, List.filter_singleton]
  simp [hp]

/-- In front of every variable the counter is the number of survivors below it. -/
theorem replacements_range' (make : Nat → Expr) (positions : List Nat) (start rest : Nat) :
    replacements make positions (List.range' start rest) (survivors start positions).length =
      ((List.range' start rest).map (projected make (start + rest) positions),
        (survivors (start + rest) positions).length) := by
  induction rest generalizing start with
  | zero => rfl
  | succ rest ih =>
    have hlt : ¬start + (rest + 1) ≤ start := by omega
    have hend : start + (rest + 1) = start + 1 + rest := by omega
    have htail := ih (start + 1)
    rw [List.range'_succ, List.map_cons, replacements]
    by_cases hp : start ∈ positions
    · have hentry : projected make (start + (rest + 1)) positions start = .const 0 := by
        rw [projected, if_neg hlt, if_pos hp]
      rw [survivors_succ_of_mem hp] at htail
      rw [if_pos hp, htail, hentry, hend]
    · have hentry : projected make (start + (rest + 1)) positions start =
          make (survivors start positions).length := by
        rw [projected, if_neg hlt, if_neg hp, length_survivors]
      rw [survivors_succ_of_notMem hp, List.length_append, List.length_singleton] at htail
      rw [if_neg hp, htail, hentry, hend]

theorem projection_eq (make : Nat → Expr) (count : Nat) (positions : List Nat) :
    projection make count positions =
      ((List.range count).map (projected make count positions), count - countBelow count positions) := by
  have hstart : (survivors 0 positions).length = 0 := rfl
  have h := replacements_range' make positions 0 count
  rwa [hstart, Nat.zero_add, ← List.range_eq_range', length_survivors] at h

/-- Variables outside the domain have no entry and stand for themselves. -/
theorem entryOr_projection (make : Nat → Expr) (count : Nat) (positions : List Nat) :
    Expr.entryOr make (projection make count positions).1 = projected make count positions := by
  rw [projection_eq]
  funext p
  unfold Expr.entryOr
  by_cases hp : p < count
  · simp [hp]
  · have hout : projected make count positions p = make p := if_pos (Nat.le_of_not_lt hp)
    simp [hp, hout]

namespace IndexMap

theorem projectDims_eq_table (m : IndexMap) (positions : List Nat) :
    m.projectDims positions =
      let (table, kept) := projection .dim m.numDims positions
      ⟨kept, m.numSymbols, m.results.map (·.substituteLists table [])⟩ := by
  have hkept : (projection .dim m.numDims positions).2 = m.numDims - countBelow m.numDims positions :=
    congrArg Prod.snd (projection_eq .dim m.numDims positions)
  simp only [projectDims, Expr.substituteLists, entryOr_projection, hkept]
  rfl

theorem projectSymbols_eq_table (m : IndexMap) (positions : List Nat) :
    m.projectSymbols positions =
      let (table, kept) := projection .symbol m.numSymbols positions
      ⟨m.numDims, kept, m.results.map (·.substituteLists [] table)⟩ := by
  have hkept : (projection .symbol m.numSymbols positions).2 =
      m.numSymbols - countBelow m.numSymbols positions :=
    congrArg Prod.snd (projection_eq .symbol m.numSymbols positions)
  simp only [projectSymbols, Expr.substituteLists, entryOr_projection, hkept]
  rfl

end IndexMap
end AffineSearch
