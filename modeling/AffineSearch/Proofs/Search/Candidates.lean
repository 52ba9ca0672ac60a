import AffineSearch.Pattern.Rearrange
import AffineSearch.Proofs.Mask.Subsets
import AffineSearch.Search.Candidates
import Mathlib.Data.List.Nodup

/-! The steps that a search tries from a pattern: which they are, and that none comes twice. -/
namespace AffineSearch

theorem mem_pairsBelow {n i j : Nat} : (i, j) ∈ pairsBelow n ↔ i < j ∧ j < n := by
  simp only [pairsBelow, List.mem_flatMap, List.mem_range, List.mem_map, List.mem_range'_1,
    Prod.mk.injEq]
  constructor
  · intro h
    obtain ⟨a, ha, b, hb, rfl, rfl⟩ := h
    omega
  · intro h
    exact ⟨i, by omega, j, by omega, rfl, rfl⟩

theorem pairsBelow_nodup (n : Nat) : (pairsBelow n).Nodup := by
  unfold pairsBelow
  rw [List.nodup_flatMap]
  constructor
  · intro i _
    exact List.Nodup.map (fun a b h => (Prod.mk.inj h).2) List.nodup_range'
  · apply List.nodup_range.imp
    intro i j hij
    simp only [Function.onFun, List.disjoint_left, List.mem_map]
    intro pair hi hj
    obtain ⟨a, -, rfl⟩ := hi
    obtain ⟨b, -, h⟩ := hj
    exact hij (Prod.mk.inj h).1.symm

namespace Pattern

theorem mem_sumPositions {p : Pattern} {position : Nat} :
    position ∈ p.sumPositions ↔ ∃ m, p.maps.head? = some m ∧ m.hasSumAt position = true := by
  unfold sumPositions
  cases p.maps with
  | nil => simp
  | cons m rest =>
    simp [IndexMap.hasSumAt, IndexMap.result?, List.mem_zipIdx_iff_getElem?, Option.any_eq_true]

theorem sumPositions_nodup (p : Pattern) : p.sumPositions.Nodup := by
  unfold sumPositions
  cases p.maps with
  | nil => exact List.nodup_nil
  | cons m rest =>
    have hsub : ((m.results.zipIdx.filter (·.1.isSum)).map (·.2)).Sublist
        (m.results.zipIdx.map (·.2)) := List.filter_sublist.map _
    have hall : (m.results.zipIdx.map (·.2)).Nodup := by
      rw [List.zipIdx_map_snd]
      exact List.nodup_range'
    exact hall.sublist hsub

/-- The steps tried from `p`, without their order. -/
def Proposes (p : Pattern) (goalDims : Nat) : Step → Prop
  | .unroll d => goalDims < p.numDims ∧ d < p.numDims
  | .mergeDims i j => goalDims < p.numDims ∧ i < j ∧ j < p.numDims
  | .dropSymbol s => s < p.numSymbols
  | .permute i j mask => (i < j ∧ j < p.maxNumResults) ∧ mask ∈ Mask.nonEmptySubsets p.numOperands
  | .expand _ mask => p.numDims < goalDims ∧ mask ∈ Mask.nonEmptySubsets p.numOperands
  | .decompose position => ∃ m, p.maps.head? = some m ∧ m.hasSumAt position = true

theorem mem_candidates {p : Pattern} {goalDims : Nat} {step : Step} :
    step ∈ p.candidates goalDims ↔ p.Proposes goalDims step := by
  unfold candidates
  cases step with
  | unroll d => by_cases h : goalDims < p.numDims <;> simp [h, Proposes]
  | mergeDims i j => by_cases h : goalDims < p.numDims <;> simp [h, Proposes, mem_pairsBelow]
  | dropSymbol s => simp [Proposes]
  | permute i j mask => simp [Proposes, mem_pairsBelow]
  | expand kind mask => by_cases h : p.numDims < goalDims <;> cases kind <;> simp [h, Proposes]
  | decompose position => simp [Proposes, mem_sumPositions]

private theorem permutes_nodup (n : Nat) {masks : List Mask} (hm : masks.Nodup) :
    ((pairsBelow n).flatMap fun (i, j) => masks.map (Step.permute i j ·)).Nodup := by
  rw [List.nodup_flatMap]
  constructor
  · intro pair _
    exact hm.map fun a b h => (Step.permute.inj h).2.2
  · apply (pairsBelow_nodup n).imp
    intro (i, j) (i', j') hne
    simp only [Function.onFun, List.disjoint_left, List.mem_map]
    intro step h h'
    obtain ⟨a, -, rfl⟩ := h
    obtain ⟨b, -, heq⟩ := h'
    obtain ⟨hi, hj, -⟩ := Step.permute.inj heq
    exact hne (by rw [hi, hj])

private theorem expands_nodup {masks : List Mask} (hm : masks.Nodup) :
    ([Kind.parallel, Kind.reduction].flatMap fun kind => masks.map (Step.expand kind ·)).Nodup := by
  rw [List.nodup_flatMap]
  constructor
  · intro kind _
    exact hm.map fun a b h => (Step.expand.inj h).2
  · simp [Function.onFun, List.disjoint_left]

theorem candidates_nodup (p : Pattern) (goalDims : Nat) : (p.candidates goalDims).Nodup := by
  have hmasks := Mask.nonEmptySubsets_nodup p.numOperands
  have hunroll : ((List.range p.numDims).map Step.unroll).Nodup :=
    List.nodup_range.map fun a b h => Step.unroll.inj h
  have hmerge : ((pairsBelow p.numDims).map fun (i, j) => Step.mergeDims i j).Nodup := by
    apply (pairsBelow_nodup p.numDims).map
    intro (i, j) (i', j') h
    obtain ⟨hi, hj⟩ := Step.mergeDims.inj h
    rw [hi, hj]
  have hdrop : ((List.range p.numSymbols).map Step.dropSymbol).Nodup :=
    List.nodup_range.map fun a b h => Step.dropSymbol.inj h
  have hpermute := permutes_nodup p.maxNumResults hmasks
  have hexpand := expands_nodup hmasks
  have hdecompose : (p.sumPositions.map Step.decompose).Nodup :=
    p.sumPositions_nodup.map fun a b h => Step.decompose.inj h
  unfold candidates
  -- Steps of different blocks are made by different constructors.
  refine (((List.Nodup.append ?_ hdrop ?_).append hpermute ?_).append ?_ ?_).append hdecompose ?_
  · split
    · exact hunroll.append hmerge (by simp [List.disjoint_left])
    · exact List.nodup_nil
  · intro step h h'
    cases step <;> simp at h h'
  · intro step h h'
    cases step <;> simp at h h'
  · split
    · exact hexpand
    · exact List.nodup_nil
  · intro step h h'
    cases step <;> simp at h h'
  · intro step h h'
    cases step <;> simp at h h'

end Pattern
end AffineSearch
