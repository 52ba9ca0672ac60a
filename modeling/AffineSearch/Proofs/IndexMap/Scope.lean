import AffineSearch.Proofs.Expr.Variables
import AffineSearch.Proofs.IndexMap.Operators
import Mathlib.Order.Interval.Finset.Nat

/-! Every operation on maps keeps their results within the domain that it leaves. For a shift this takes sums that
are words, where it does no more than make room. -/
namespace AffineSearch

theorem countBelow_eq_card (bound : Nat) (positions : List Nat) :
    countBelow bound positions = (positions.toFinset.filter (· < bound)).card := by
  induction positions with
  | nil => rfl
  | cons p rest ih =>
    rw [countBelow, ih, List.toFinset_cons, Finset.filter_insert]
    by_cases hp : p < bound
    · by_cases hrest : p ∈ rest
      · simp [hp, hrest]
      · simp [hp, hrest, Nat.add_comm]
    · simp [hp]

theorem countBelow_singleton_of_lt {bound p : Nat} (h : p < bound) : countBelow bound [p] = 1 := by
  simp [countBelow, h]

theorem countBelow_le (bound : Nat) (positions : List Nat) : countBelow bound positions ≤ bound := by
  rw [countBelow_eq_card]
  have hsub : positions.toFinset.filter (· < bound) ⊆ Finset.range bound := by
    intro q hq
    exact Finset.mem_range.mpr (Finset.mem_filter.mp hq).2
  simpa using Finset.card_le_card hsub

/-- From `p` up to `bound` no more are removed than there are, and `p` itself is not. -/
theorem countBelow_le_add {p bound : Nat} {positions : List Nat} (hkept : p ∉ positions) :
    countBelow bound positions ≤ countBelow p positions + (bound - p - 1) := by
  have hsub : positions.toFinset.filter (· < bound) ⊆
      positions.toFinset.filter (· < p) ∪ Finset.Ioo p bound := by
    intro q hq
    obtain ⟨hmem, hlt⟩ := Finset.mem_filter.mp hq
    have hne : q ≠ p := fun h => hkept (h ▸ List.mem_toFinset.mp hmem)
    rcases Nat.lt_or_gt_of_ne hne with h | h
    · exact Finset.mem_union_left _ (Finset.mem_filter.mpr ⟨hmem, h⟩)
    · exact Finset.mem_union_right _ (Finset.mem_Ioo.mpr ⟨h, hlt⟩)
  have hcard := (Finset.card_le_card hsub).trans (Finset.card_union_le _ _)
  rw [Nat.card_Ioo] at hcard
  rw [countBelow_eq_card, countBelow_eq_card]
  exact hcard

theorem sub_countBelow_lt {p bound : Nat} {positions : List Nat} (hp : p < bound)
    (hkept : p ∉ positions) : p - countBelow p positions < bound - countBelow bound positions := by
  have hle := countBelow_le p positions
  have hadd : countBelow bound positions ≤ countBelow p positions + (bound - p - 1) :=
    countBelow_le_add hkept
  omega

namespace Expr
variable {dims symbols : Nat → Prop}

theorem varsIn_projected {make : Nat → Expr} {count : Nat} {positions : List Nat} {p : Nat}
    (hp : p < count)
    (hmake : ∀ i < count - countBelow count positions, (make i).VarsIn dims symbols) :
    (projected make count positions p).VarsIn dims symbols := by
  unfold projected
  rw [if_neg (Nat.not_le_of_lt hp)]
  split
  · trivial
  · next hkept => exact hmake _ (sub_countBelow_lt hp hkept)

theorem projected_singleton_of_ne {make : Nat → Expr} {count d p : Nat} (hp : p < count) (hne : p ≠ d) :
    projected make count [d] p = make (if p < d then p else p - 1) := by
  unfold projected
  rw [if_neg (Nat.not_le_of_lt hp), if_neg (by simpa using hne)]
  by_cases hlt : p < d
  · have hcount : countBelow p [d] = 0 := by simp [countBelow, Nat.le_of_lt hlt]
    rw [hcount, if_pos hlt, Nat.sub_zero]
  · have hcount : countBelow p [d] = 1 := countBelow_singleton_of_lt (by omega)
    rw [hcount, if_neg hlt]

end Expr

namespace IndexMap
variable {m m' : IndexMap}

theorem inScope_iff : m.InScope ↔
    ∀ e ∈ m.results, e.VarsIn (· < m.numDims) (· < m.numSymbols) :=
  forall₂_congr fun _ _ => Expr.inScope_iff_varsIn

theorem inScope_map (h : m.InScope) {numDims numSymbols : Nat} {f : Expr → Expr}
    (hf : ∀ e : Expr, e.VarsIn (· < m.numDims) (· < m.numSymbols) →
      (f e).VarsIn (· < numDims) (· < numSymbols)) :
    (IndexMap.mk numDims numSymbols (m.results.map f)).InScope := by
  rw [inScope_iff] at h ⊢
  intro e' he'
  obtain ⟨e, he, rfl⟩ := List.mem_map.mp he'
  exact hf e (h e he)

theorem inScope_replace (h : m.InScope) {old new : Expr}
    (hnew : new.InScope m.numDims m.numSymbols) : (m.replace old new).InScope := by
  apply inScope_map h
  intro e he
  apply Expr.varsIn_replace (Expr.inScope_iff_varsIn.mp hnew)
  exact he.mono (fun p hp _ => hp) fun p hp _ => hp

theorem inScope_projectDims (h : m.InScope) (positions : List Nat) :
    (m.projectDims positions).InScope := by
  apply inScope_map h
  intro e he
  apply Expr.varsIn_substitute
  exact he.mono (fun p hp => Expr.varsIn_projected hp fun i hi => hi) fun p hp => hp

theorem inScope_projectSymbols (h : m.InScope) (positions : List Nat) :
    (m.projectSymbols positions).InScope := by
  apply inScope_map h
  intro e he
  apply Expr.varsIn_substitute
  exact he.mono (fun p hp => hp) fun p hp => Expr.varsIn_projected hp fun i hi => hi

theorem inScope_makeRoom (h : m.InScope) (count offset : Nat) : (m.makeRoom count offset).InScope := by
  apply inScope_map h
  intro e he
  apply Expr.varsIn_makeRoom
  apply he.mono
  · intro p hp
    split <;> omega
  · intro p hp
    exact hp

theorem shiftDims_eq_makeRoom (h : m.InScope) {count : Nat} (hfits : m.numDims + count < 2 ^ 64) (offset : Nat) :
    m.shiftDims count offset = m.makeRoom count offset := by
  have hresults : ∀ e ∈ m.results, e.shiftDims count offset = e.makeRoom count offset := by
    intro e he
    apply Expr.shiftDims_eq_makeRoom
    refine (inScope_iff.mp h e he).mono ?_ fun p hp => hp
    intro p hp
    omega
  unfold shiftDims makeRoom
  rw [Word.wrappingAdd_of_lt hfits, List.map_congr_left hresults]

/-- A new dimension is one that a shift adds, unless there are as many as a word can count. -/
theorem widen?_eq_shifted (h : m.InScope) (hfits : m.numDims + 1 < 2 ^ 64) (kind : Kind) (numDims : Nat)
    (isSelected : Bool) : m.widen? kind numDims isSelected =
      match kind with
      | .parallel =>
        let wide := m.shiftDims 1 0
        if isSelected then (wide.insertResult (.dim 0) 0).toOption else some wide
      | .reduction =>
        let wide := m.shiftDims 1 numDims
        if isSelected then (wide.insertResult (.dim numDims) wide.numResults).toOption else some wide := by
  simp only [shiftDims_eq_makeRoom h hfits]
  rfl

end IndexMap
end AffineSearch
