import AffineSearch.Proofs.Expr.Total
import AffineSearch.Proofs.Pattern.Selection

/-! What it does to a pattern to take its sums apart. The terms of a sum come to stand where the sum was, in
their order, and there is nothing left to take apart at the same position. -/
namespace AffineSearch

/-- The terms are those of the sum from left to right. None of them is a sum, and they add up to its value. -/
structure Expr.SplitsInto (e : Expr) (terms : List Expr) : Prop where
  isSumOf : e.IsSumOf terms
  two_le_length : 2 ≤ terms.length
  not_isSum : ∀ t ∈ terms, t.isSum = false
  total?_eq : ∀ x v, e.value? x = some v → Expr.total? x terms = some v

theorem Expr.splitsInto_summands {e : Expr} (h : e.isSum = true) : e.SplitsInto e.summands where
  isSumOf := e.isSumOf_summands
  two_le_length := e.isSumOf_summands.two_le_length h
  not_isSum _ ht := e.isSumOf_summands.not_isSum ht
  total?_eq _ _ hv := total?_of_isSumOf e.isSumOf_summands hv

namespace IndexMap
variable {m m' : IndexMap} {position : Nat}

/-- One map has the terms of a sum where the other has the sum at `position`. They agree in all else, and
entirely if there is no sum. -/
structure SplitsAt (position : Nat) (m m' : IndexMap) : Prop where
  numDims_eq : m'.numDims = m.numDims
  numSymbols_eq : m'.numSymbols = m.numSymbols
  eq_of_not_sum : (∀ e, m.results[position]? = some e → e.isSum = false) → m' = m
  exists_terms : ∀ front e back, m.results = front ++ e :: back → front.length = position →
    e.isSum = true → ∃ terms, m'.results = front ++ terms ++ back ∧ e.SplitsInto terms

theorem hasSumAt_eq_true_iff : m.hasSumAt position = true ↔
    ∃ e, m.results[position]? = some e ∧ e.isSum = true := by
  simp [hasSumAt, result?, Option.any_eq_true]

theorem exists_splitSum? (hscope : m.InScope) (position : Nat) : ∃ m', m.splitSum? position = some m' := by
  cases hsum : m.hasSumAt position with
  | false => exact ⟨m, splitSum?_eq_some_iff.mpr (Or.inl ⟨hsum, rfl⟩)⟩
  | true =>
    obtain ⟨e, he, hadd⟩ := hasSumAt_eq_true_iff.mp hsum
    refine ⟨_, splitSum?_eq_some_iff.mpr (Or.inr ⟨e, he, hadd, ?_, rfl⟩)⟩
    rw [inScope_iff] at hscope ⊢
    intro t ht
    simp only [List.mem_append] at ht
    rcases ht with (ht | ht) | ht
    · exact hscope t (List.mem_of_mem_take ht)
    · exact (hscope e (List.mem_of_getElem? he)).of_mem_summands ht
    · exact hscope t (List.mem_of_mem_drop ht)

theorem splitsAt_of_splitSum? (h : m.splitSum? position = some m') : m.SplitsAt position m' := by
  rcases splitSum?_eq_some_iff.mp h with ⟨hnone, rfl⟩ | ⟨e, he, hadd, -, rfl⟩
  · refine ⟨rfl, rfl, fun _ => rfl, ?_⟩
    intro front e back hsplit hlen hadd
    have hsum : m'.hasSumAt position = true :=
      hasSumAt_eq_true_iff.mpr ⟨e, by simp [hsplit, ← hlen], hadd⟩
    rw [hnone] at hsum
    cases hsum
  · refine ⟨rfl, rfl, ?_, ?_⟩
    · intro hnone
      rw [hnone e he] at hadd
      cases hadd
    · rintro front e' back hsplit rfl hadd'
      obtain rfl : e' = e := by simpa [hsplit] using he
      exact ⟨e'.summands, by simp [hsplit], Expr.splitsInto_summands hadd'⟩

theorem hasSumAt_of_splitSum? (h : m.splitSum? position = some m') : m'.hasSumAt position = false := by
  rcases splitSum?_eq_some_iff.mp h with ⟨hnone, rfl⟩ | ⟨e, he, hadd, -, rfl⟩
  · exact hnone
  · rw [← Bool.not_eq_true, hasSumAt_eq_true_iff]
    rintro ⟨t, ht, hsum⟩
    -- The first of the terms stands at the position now.
    have hlen : (m.results.take position).length = position :=
      List.length_take_of_le (Nat.le_of_lt (List.getElem?_eq_some_iff.mp he).1)
    have hpos := e.isSumOf_summands.length_pos
    rw [List.append_assoc, List.getElem?_append_right (Nat.le_of_eq hlen), hlen, Nat.sub_self,
      List.getElem?_append_left hpos] at ht
    rw [e.isSumOf_summands.not_isSum (List.mem_of_getElem? ht)] at hsum
    cases hsum

end IndexMap

namespace Pattern
variable {p : Pattern}

/-- Sums are taken apart if an operand has one at the position. After that none has. -/
theorem decompose?_splits (hp : p.WellFormed) (position : Nat) :
    ((∃ q, p.decompose? position = some q) ↔
      ∃ m ∈ p.maps, ∃ e, m.results[position]? = some e ∧ e.isSum = true) ∧
    ∀ q, p.decompose? position = some q → q.kinds = p.kinds ∧
      List.Forall₂ (IndexMap.SplitsAt position) p.maps q.maps ∧ q.decompose? position = none := by
  have hany : p.maps.any (·.hasSumAt position) = true ↔
      ∃ m ∈ p.maps, ∃ e, m.results[position]? = some e ∧ e.isSum = true := by
    simp only [List.any_eq_true, IndexMap.hasSumAt_eq_true_iff]
  constructor
  · rw [← hany]
    constructor
    · rintro ⟨q, hq⟩
      exact (decompose?_eq_some_iff.mp hq).1
    · intro hsum
      obtain ⟨maps, hmaps⟩ := exists_mapM_eq_some_iff.mpr fun m hm =>
        IndexMap.exists_splitSum? (hp.inScope m hm) position
      exact ⟨⟨maps, p.kinds⟩, decompose?_eq_some_iff.mpr ⟨hsum, mapM_eq_some_iff.mp hmaps, rfl⟩⟩
  · intro q hq
    obtain ⟨-, hmaps, hkinds⟩ := decompose?_eq_some_iff.mp hq
    have hsplit := forall₂_of_mapM_eq_some (mapM_eq_some_iff.mpr hmaps)
    refine ⟨hkinds, hsplit.imp fun m m' => IndexMap.splitsAt_of_splitSum?, ?_⟩
    have hnone : q.maps.any (·.hasSumAt position) = false := by
      rw [List.any_eq_false]
      intro m' hm'
      rw [Bool.not_eq_true]
      have hsome : some m' ∈ p.maps.map (·.splitSum? position) := hmaps ▸ List.mem_map_of_mem hm'
      obtain ⟨m, -, hm⟩ := List.mem_map.mp hsome
      exact IndexMap.hasSumAt_of_splitSum? hm
    simp [decompose?, hnone]

/-- A sum of two sums, between other results. The second operand has no sum and stays as it is. -/
theorem decompose?_splits_nested :
    let scaled : Expr := .binary .mul (.dim 0) (.const 2)
    let sum : Expr := .binary .add (.binary .add (.dim 0) (.dim 1)) (.binary .add (.symbol 0) scaled)
    let m : IndexMap := ⟨2, 1, [.dim 1, sum, .dim 0]⟩
    let m' : IndexMap := ⟨2, 1, [.dim 1, .dim 0, .dim 1, .symbol 0, scaled, .dim 0]⟩
    let p : Pattern := ⟨[m, ⟨2, 1, [.dim 0]⟩], [.parallel, .parallel]⟩
    let q : Pattern := ⟨[m', ⟨2, 1, [.dim 0]⟩], [.parallel, .parallel]⟩
    p.WellFormed ∧ p.decompose? 1 = some q ∧ m.SplitsAt 1 m' ∧ q.decompose? 1 = none := by
  intro scaled sum m m' p q
  have hp : p.WellFormed := by decide
  have hq : p.decompose? 1 = some q := by decide +kernel
  obtain ⟨-, hsplits⟩ := decompose?_splits hp 1
  obtain ⟨-, hmaps, hnone⟩ := hsplits q hq
  cases hmaps with
  | cons hm _ => exact ⟨hp, hq, hm, hnone⟩

end Pattern
end AffineSearch
