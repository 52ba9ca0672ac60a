import AffineSearch.Pattern.Eliminate
import AffineSearch.Pattern.Rearrange
import AffineSearch.Pattern.WellFormed

/-! When each operation on a map applies and what it makes of the results. -/
namespace AffineSearch

theorem toOption_eq_some_iff {ε α : Type} {r : Except ε α} {a : α} :
    r.toOption = some a ↔ r = .ok a := by
  cases r <;> simp [Except.toOption]

namespace Kind
variable {α β : Type}

/-- Where a new dimension comes to stand among `numDims` others. -/
def newDim (numDims : Nat) : Kind → Nat
  | parallel => 0
  | reduction => numDims

/-- What comes with a new dimension stands in front of the old if it is parallel, and behind it if not. -/
def place (kind : Kind) (new old : List α) : List α :=
  match kind with
  | parallel => new ++ old
  | reduction => old ++ new

@[simp] theorem mem_place {kind : Kind} {new old : List α} {a : α} :
    a ∈ kind.place new old ↔ a ∈ new ∨ a ∈ old := by
  cases kind <;> simp [place, or_comm]

@[simp] theorem length_place (kind : Kind) (new old : List α) :
    (kind.place new old).length = new.length + old.length := by
  cases kind <;> simp [place, Nat.add_comm]

@[simp] theorem place_nil (kind : Kind) (old : List α) : kind.place [] old = old := by
  cases kind <;> simp [place]

theorem map_place (f : α → β) (kind : Kind) (new old : List α) :
    (kind.place new old).map f = kind.place (new.map f) (old.map f) := by
  cases kind <;> simp [place]

theorem exists_place_singleton (kind : Kind) (a : α) (old : List α) :
    ∃ front back, kind.place [a] old = front ++ a :: back ∧ front ++ back = old := by
  cases kind with
  | parallel => exact ⟨[], old, rfl, rfl⟩
  | reduction => exact ⟨old, [], rfl, List.append_nil old⟩

theorem newDim_le (kind : Kind) (numDims : Nat) : kind.newDim numDims ≤ numDims := by
  cases kind <;> simp [newDim]

end Kind

namespace IndexMap
variable {m m' : IndexMap} {position : Nat}

theorem dropZeros?_eq_some_iff : m.dropZeros? = some m' ↔
    m' = { m with results := m.results.filter (· ≠ .const 0) } ∧ m'.results ≠ [] := by
  unfold dropZeros?
  cases m.results.filter (· ≠ .const 0) with
  | nil =>
    simp only [reduceCtorEq, false_iff]
    rintro ⟨rfl, hne⟩
    exact hne rfl
  | cons e kept =>
    simp only [Option.some.injEq, eq_comm (b := m'), iff_self_and]
    rintro rfl
    exact List.cons_ne_nil e kept

/-- The positions of the results that are 0. -/
def zeroPositions (m : IndexMap) : List Nat :=
  (m.results.zipIdx.filter (·.1 = .const 0)).map (·.2)

theorem mem_zeroPositions_iff {e : Expr} {i : Nat} (h : (e, i) ∈ m.results.zipIdx) :
    i ∈ m.zeroPositions ↔ e = .const 0 := by
  rw [List.mem_zipIdx_iff_getElem?] at h
  have hmem : i ∈ m.zeroPositions ↔ m.results[i]? = some (.const 0) := by
    simp [zeroPositions, List.mem_zipIdx_iff_getElem?]
  rw [hmem, h, Option.some.injEq]

theorem length_zeroPositions (m : IndexMap) : m.zeroPositions.length = m.results.countP (· = .const 0) :=
  calc m.zeroPositions.length
    _ = m.results.zipIdx.countP (·.1 = .const 0) := by
      rw [zeroPositions, List.length_map, List.countP_eq_length_filter]
    _ = (m.results.zipIdx.map Prod.fst).countP (· = .const 0) := by
      rw [List.countP_map]
      rfl
    _ = m.results.countP (· = .const 0) := by rw [List.zipIdx_map_fst]

theorem dropResults_zeroPositions (m : IndexMap) :
    m.dropResults m.zeroPositions = { m with results := m.results.filter (· ≠ .const 0) } := by
  have hkept : ∀ r ∈ m.results.zipIdx, (!m.zeroPositions.contains r.2) = decide (r.1 ≠ .const 0) := by
    intro r hr
    rw [List.contains_eq_mem, decide_not, decide_eq_decide.mpr (mem_zeroPositions_iff hr)]
  have hresults : (m.results.zipIdx.filter (·.1 ≠ .const 0)).map Prod.fst = m.results.filter (· ≠ .const 0) :=
    calc (m.results.zipIdx.filter (·.1 ≠ .const 0)).map Prod.fst
      _ = (m.results.zipIdx.map Prod.fst).filter (· ≠ .const 0) := by
        rw [List.filter_map]
        rfl
      _ = m.results.filter (· ≠ .const 0) := by rw [List.zipIdx_map_fst]
  unfold dropResults
  rw [List.filter_congr hkept, hresults]

/-- What is dropped are the positions of the zeros, and that is refused where they are all there are. -/
theorem dropZeros?_eq_dropResults (m : IndexMap) : m.dropZeros? =
    if m.zeroPositions.length = m.numResults then none else some (m.dropResults m.zeroPositions) := by
  have hall : m.zeroPositions.length = m.numResults ↔ m.results.filter (· ≠ .const 0) = [] := by
    rw [length_zeroPositions, numResults, List.countP_eq_length, List.filter_eq_nil_iff]
    simp
  rw [dropResults_zeroPositions]
  simp only [hall]
  unfold dropZeros?
  cases m.results.filter (· ≠ .const 0) with
  | nil => rfl
  | cons e kept => rfl

theorem insertResult_toOption_eq_some_iff {e : Expr} : (m.insertResult e position).toOption = some m' ↔
    position ≤ m.numResults ∧ e.InScope m.numDims m.numSymbols ∧
      m' = { m with results := m.results.insertIdx position e } := by
  unfold insertResult
  split
  · next h => simp [Except.toOption, Nat.not_le_of_gt h]
  · next h =>
    rw [← Expr.outOfScope?_eq_none_iff]
    cases e.outOfScope? m.numDims m.numSymbols with
    | some fault => simp [Except.toOption]
    | none => simp [Except.toOption, Nat.le_of_not_lt h, eq_comm]

theorem splitSum?_eq_some_iff : m.splitSum? position = some m' ↔
    (m.hasSumAt position = false ∧ m' = m) ∨
      ∃ e, m.results[position]? = some e ∧ e.isSum = true ∧ m'.InScope ∧
        m' = { m with
          results := m.results.take position ++ e.summands ++ m.results.drop (position + 1) } := by
  unfold splitSum? hasSumAt result? withResults
  cases m.results[position]? with
  | none => simp [eq_comm (a := m)]
  | some e =>
    cases hs : e.isSum with
    | true =>
      simp only [hs, if_true, toOption_eq_some_iff, ofResults_eq_ok_iff]
      simp [hs, and_comm]
    | false => simp [hs, eq_comm (a := m)]

/-- With a new dimension, and with a result for it if the operand is selected. -/
def widened (kind : Kind) (isSelected : Bool) (m : IndexMap) : IndexMap where
  numDims := m.numDims + 1
  numSymbols := m.numSymbols
  results := kind.place (if isSelected then [.dim (kind.newDim m.numDims)] else [])
    (m.results.map (·.makeRoom 1 (kind.newDim m.numDims)))

/-- The new result is in scope, so nothing can fail. -/
theorem widen?_eq_widened (m : IndexMap) (kind : Kind) (isSelected : Bool) :
    m.widen? kind m.numDims isSelected = some (m.widened kind isSelected) := by
  cases kind with
  | parallel =>
    cases isSelected with
    | false => rfl
    | true =>
      have hscope : (Expr.dim 0).InScope (m.makeRoom 1 0).numDims (m.makeRoom 1 0).numSymbols :=
        Nat.succ_pos m.numDims
      exact insertResult_toOption_eq_some_iff.mpr ⟨Nat.zero_le _, hscope, rfl⟩
  | reduction =>
    cases isSelected with
    | false => simp [widen?, makeRoom, widened, Kind.newDim]
    | true =>
      have hscope : (Expr.dim m.numDims).InScope (m.makeRoom 1 m.numDims).numDims
          (m.makeRoom 1 m.numDims).numSymbols := Nat.lt_succ_self m.numDims
      refine insertResult_toOption_eq_some_iff.mpr ⟨Nat.le_refl _, hscope, ?_⟩
      rw [numResults, List.insertIdx_length_self]
      rfl

end IndexMap
end AffineSearch
