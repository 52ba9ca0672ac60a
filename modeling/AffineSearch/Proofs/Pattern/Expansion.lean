import AffineSearch.Proofs.Expr.Substitution
import AffineSearch.Proofs.Pattern.Removal

/-! What a new dimension does to a pattern. The selected operands read it beside what they read before, all
others read what they did, and to unroll it again restores the pattern. -/
namespace AffineSearch

namespace Expr
variable {e : Expr} {c : Int64} {d count offset : Nat}

theorem makeRoom_eq_const_iff : e.makeRoom count offset = const c ↔ e = const c := by
  rw [makeRoom_eq_rename, rename_eq_const_iff]

theorem mentionsDim_makeRoom_one (e : Expr) (d : Nat) : (e.makeRoom 1 d).mentionsDim d = false :=
  mentionsDim_makeRoom e (Nat.le_refl d) (Nat.lt_succ_self d)

theorem lowerDims_makeRoom_one (e : Expr) (d : Nat) : (e.makeRoom 1 d).lowerDims d = e :=
  rename_makeRoom e 1 d

end Expr

namespace IndexMap
variable {m : IndexMap} {kind : Kind} {isSelected : Bool}

theorem over_widened (hscope : m.InScope) (kind : Kind) (isSelected : Bool) :
    (m.widened kind isSelected).Over (m.numDims + 1) m.numSymbols := by
  have hover : m.Over m.numDims m.numSymbols := ⟨rfl, rfl, hscope⟩
  exact (hover.widen? (widen?_eq_widened m kind isSelected)).1

theorem mentionsDim_of_mem_shifted {d : Nat} : ∀ e ∈ m.results.map (·.makeRoom 1 d), e.mentionsDim d = false := by
  intro e' he'
  obtain ⟨e, -, rfl⟩ := List.mem_map.mp he'
  exact Expr.mentionsDim_makeRoom_one e d

theorem IsReduced.widened (hm : m.IsReduced) (kind : Kind) (isSelected : Bool) :
    (m.widened kind isSelected).IsReduced where
  isFolded := hm.isFolded.widen? (widen?_eq_widened m kind isSelected)
  results_ne_nil := by
    have hpos : 0 < m.results.length := List.length_pos_iff.mpr hm.results_ne_nil
    apply List.length_pos_iff.mp
    simp only [IndexMap.widened, Kind.length_place, List.length_map]
    omega
  zero_notMem := by
    intro hmem
    rcases Kind.mem_place.mp hmem with hnew | hold
    · cases isSelected <;> simp at hnew
    · obtain ⟨e, he, hzero⟩ := List.mem_map.mp hold
      rw [Expr.makeRoom_eq_const_iff] at hzero
      exact hm.zero_notMem (hzero ▸ he)

/-- The new dimension is used by itself only, and without it the shifted results are left. -/
theorem widened_usesAlone (m : IndexMap) (kind : Kind) (isSelected : Bool) :
    (m.widened kind isSelected).UsesAlone (kind.newDim m.numDims) ∧
      (m.widened kind isSelected).results.erase (.dim (kind.newDim m.numDims)) =
        m.results.map (·.makeRoom 1 (kind.newDim m.numDims)) := by
  have hunused := mentionsDim_of_mem_shifted (m := m) (d := kind.newDim m.numDims)
  cases isSelected with
  | false =>
    have hresults : (m.widened kind false).results = m.results.map (·.makeRoom 1 (kind.newDim m.numDims)) :=
      kind.place_nil _
    refine ⟨Or.inl ?_, ?_⟩
    · rw [mentionsDim_eq_false_iff, hresults]
      exact hunused
    · rw [hresults, List.erase_of_not_mem (dim_notMem_of_forall hunused)]
  | true =>
    obtain ⟨front, back, hplace, hshifted⟩ := kind.exists_place_singleton (.dim (kind.newDim m.numDims))
      (m.results.map (·.makeRoom 1 (kind.newDim m.numDims)))
    have hresults : (m.widened kind true).results = front ++ .dim (kind.newDim m.numDims) :: back := hplace
    rw [← hshifted] at hunused ⊢
    refine ⟨Or.inr ⟨front, back, hresults, hunused⟩, ?_⟩
    rw [hresults, erase_dim_eq hunused]

theorem withoutDim_widened (m : IndexMap) (kind : Kind) (isSelected : Bool) :
    (m.widened kind isSelected).withoutDim (kind.newDim m.numDims) = m := by
  have hrestored : (m.results.map (·.makeRoom 1 (kind.newDim m.numDims))).map
      (·.lowerDims (kind.newDim m.numDims)) = m.results := by
    rw [List.map_map]
    exact List.map_id'' (fun e => Expr.lowerDims_makeRoom_one e (kind.newDim m.numDims)) m.results
  unfold withoutDim
  rw [(widened_usesAlone m kind isSelected).2, hrestored]
  rfl

theorem eliminateDim?_widened (hscope : m.InScope) (hm : m.IsReduced) (kind : Kind) (isSelected : Bool) :
    (m.widened kind isSelected).eliminateDim? (kind.newDim m.numDims) = some m := by
  obtain ⟨huse, herase⟩ := widened_usesAlone m kind isSelected
  have hd : kind.newDim m.numDims < (m.widened kind isSelected).numDims :=
    Nat.lt_succ_of_le (kind.newDim_le m.numDims)
  have hleft : (m.widened kind isSelected).results.erase (.dim (kind.newDim m.numDims)) ≠ [] := by
    rw [herase]
    intro hnil
    exact hm.results_ne_nil (List.map_eq_nil_iff.mp hnil)
  rw [eliminateDim?_eq_withoutDim (over_widened hscope kind isSelected).inScope hd
    (hm.widened kind isSelected) huse hleft, withoutDim_widened]

theorem value?_widened (m : IndexMap) (kind : Kind) (isSelected : Bool) (x : Point) :
    (m.widened kind isSelected).results.map (·.value? x) =
      kind.place (if isSelected then [some (x.dims (kind.newDim m.numDims))] else [])
        (m.results.map (·.value? (x.removeDim (kind.newDim m.numDims)))) := by
  unfold widened
  rw [Kind.map_place, List.map_map]
  congr 1
  · cases isSelected <;> rfl
  · apply List.map_congr_left
    intro e _
    exact Expr.value?_makeRoom_one x e (kind.newDim m.numDims)

end IndexMap

namespace Pattern
variable {p q : Pattern} {kind : Kind} {mask : Mask}

/-- With a new dimension of the given kind, which the selected operands read. -/
def expanded (kind : Kind) (mask : Mask) (p : Pattern) : Pattern :=
  ⟨p.maps.zipIdx.map fun (m, k) => m.widened kind (mask.isSelected k), kind.place [kind] p.kinds⟩

theorem expand?_eq_some_iff_expanded (hp : p.WellFormed) : p.expand? kind mask = some q ↔
    (∃ k < p.numOperands, mask.isSelected k = true) ∧ q = p.expanded kind mask := by
  have hmaps : p.maps.zipIdx.map (fun (m, k) => m.widen? kind p.numDims (mask.isSelected k)) =
      (p.expanded kind mask).maps.map some := by
    rw [expanded, List.map_map]
    apply List.map_congr_left
    rintro ⟨m, k⟩ hm
    have hdims : m.numDims = p.numDims := hp.numDims_eq m (List.fst_mem_of_mem_zipIdx hm)
    rw [← hdims]
    exact m.widen?_eq_widened kind (mask.isSelected k)
  have hinj : (p.expanded kind mask).maps.map some = q.maps.map some ↔ q.maps = (p.expanded kind mask).maps := by
    rw [List.map_inj_right fun _ _ => Option.some.inj, eq_comm]
  rw [expand?_eq_some_iff, Mask.selectsBelow_iff, hmaps, hinj]
  obtain ⟨maps, kinds⟩ := q
  cases kind <;> simp [expanded, Kind.place, and_comm]

/-- A new dimension is added if an existing operand reads it. The selected operands then read it as the first or
the last of their results, and all other values are those at the point without it. -/
theorem expand?_values (hp : p.WellFormed) (kind : Kind) (mask : Mask) :
    ((∃ q, p.expand? kind mask = some q) ↔ ∃ k < p.numOperands, mask.isSelected k = true) ∧
      (∀ mask' : Mask, (∀ k < p.numOperands, mask'.isSelected k = mask.isSelected k) →
        p.expand? kind mask' = p.expand? kind mask) ∧
      ∀ q, p.expand? kind mask = some q →
        q.kinds = kind.place [kind] p.kinds ∧ q.numOperands = p.numOperands ∧
          ∀ (k : Nat) (m : IndexMap), p.maps[k]? = some m → ∃ m', q.maps[k]? = some m' ∧
            m'.numDims = m.numDims + 1 ∧ m'.numSymbols = m.numSymbols ∧
            ∀ x : Point, m'.results.map (·.value? x) =
              kind.place (if mask.isSelected k then [some (x.dims (kind.newDim p.numDims))] else [])
                (m.results.map (·.value? (x.removeDim (kind.newDim p.numDims)))) := by
  refine ⟨?applies, ?beyond, ?values⟩
  case applies => simp only [expand?_eq_some_iff_expanded hp, exists_and_left, exists_eq, and_true]
  case beyond =>
    intro mask' hsame
    unfold expand?
    rw [mapSelected?_congr hsame]
  case values =>
    intro q hq
    obtain ⟨-, rfl⟩ := (expand?_eq_some_iff_expanded hp).mp hq
    refine ⟨rfl, by simp [numOperands, expanded], ?_⟩
    intro k m hm
    refine ⟨m.widened kind (mask.isSelected k), by simp [expanded, hm], rfl, rfl, ?_⟩
    intro x
    rw [← hp.numDims_eq m (List.mem_of_getElem? hm)]
    exact m.value?_widened kind (mask.isSelected k) x

/-- The input of a convolution is read along a batch and the kernel is not. The last flag of the mask has no
operand. -/
theorem expand?_values_convolution :
    let mask : Mask := ⟨[true, false, true, true]⟩
    let input : IndexMap := ⟨3, 1, [.dim 0, .binary .add (.binary .mul (.dim 1) (.symbol 0)) (.dim 2)]⟩
    let q : Pattern := ⟨[input, ⟨3, 1, [.dim 2]⟩, ⟨3, 1, [.dim 0, .dim 1]⟩],
      [.parallel, .parallel, .reduction]⟩
    let x : Point := ⟨([9, 5, 3].getD · 0), fun _ => 2⟩
    convolution.WellFormed ∧ convolution.expand? .parallel mask = some q ∧
      (∃ k < convolution.numOperands, mask.isSelected k = true) ∧
      ∃ m', q.maps[0]? = some m' ∧ m'.results.map (·.value? x) = [some 9, some 13] := by
  intro mask input q x
  have hp : convolution.WellFormed := by decide
  have hq : convolution.expand? .parallel mask = some q := by decide +kernel
  obtain ⟨happlies, -, hvalues⟩ := expand?_values hp .parallel mask
  obtain ⟨-, -, hmaps⟩ := hvalues q hq
  obtain ⟨m', hm', -, -, hx⟩ := hmaps 0 _ rfl
  refine ⟨hp, hq, happlies.mp ⟨q, hq⟩, m', hm', ?_⟩
  rw [hx x]
  decide

theorem map_eliminateDim?_expanded (hp : p.WellFormed) (hreduced : ∀ m ∈ p.maps, m.IsReduced) (kind : Kind)
    (mask : Mask) :
    (p.expanded kind mask).maps.map (·.eliminateDim? (kind.newDim p.numDims)) = p.maps.map some := by
  have hrestored : (p.expanded kind mask).maps.map (·.eliminateDim? (kind.newDim p.numDims)) =
      p.maps.zipIdx.map (some ∘ Prod.fst) := by
    rw [expanded, List.map_map]
    apply List.map_congr_left
    rintro ⟨m, k⟩ hmem
    have hm : m ∈ p.maps := List.fst_mem_of_mem_zipIdx hmem
    rw [← hp.numDims_eq m hm]
    exact IndexMap.eliminateDim?_widened (hp.inScope m hm) (hreduced m hm) kind (mask.isSelected k)
  rw [hrestored, ← List.map_map, List.zipIdx_map_fst]

theorem eraseIdx_place_newDim (kind : Kind) (kinds : List Kind) :
    (kind.place [kind] kinds).eraseIdx (kind.newDim kinds.length) = kinds := by
  cases kind with
  | parallel => rfl
  | reduction =>
    have hlast : (kinds ++ [Kind.reduction]).eraseIdx kinds.length = kinds ++ [] := by
      rw [List.eraseIdx_append_of_length_le (Nat.le_refl _), Nat.sub_self]
      rfl
    exact hlast.trans (List.append_nil kinds)

/-- To unroll a new dimension right away is to undo its expansion, for either kind and any operands. -/
theorem unroll?_expanded (hp : p.WellFormed) (hreduced : ∀ m ∈ p.maps, m.IsReduced) (kind : Kind)
    (hmask : ∃ k < p.numOperands, mask.isSelected k = true) :
    ∃ q, p.expand? kind mask = some q ∧ q.numDims = p.numDims + 1 ∧
      q.unroll? (kind.newDim p.numDims) = some p := by
  have hdims : (p.expanded kind mask).numDims = p.numDims + 1 := by
    simp [numDims, expanded, Nat.add_comm]
  have hnew : kind.newDim p.numDims < p.numDims + 1 := Nat.lt_succ_of_le (kind.newDim_le p.numDims)
  refine ⟨p.expanded kind mask, (expand?_eq_some_iff_expanded hp).mpr ⟨hmask, rfl⟩, hdims, ?_⟩
  rw [unroll?_eq_some_iff, hdims]
  exact ⟨hnew, map_eliminateDim?_expanded hp hreduced kind mask, (eraseIdx_place_newDim kind p.kinds).symm⟩

theorem unroll?_expanded_convolution :
    let mask : Mask := ⟨[false, true]⟩
    convolution.WellFormed ∧ (∀ m ∈ convolution.maps, m.IsReduced) ∧
      (∃ k < convolution.numOperands, mask.isSelected k = true) ∧
      (∃ q, convolution.expand? .parallel mask = some q ∧ q.numDims = 3 ∧ q.unroll? 0 = some convolution) ∧
      ∃ q, convolution.expand? .reduction mask = some q ∧ q.numDims = 3 ∧ q.unroll? 2 = some convolution := by
  intro mask
  have hp : convolution.WellFormed := by decide
  have hreduced : ∀ m ∈ convolution.maps, m.IsReduced := by decide
  have hmask : ∃ k < convolution.numOperands, mask.isSelected k = true := ⟨1, by decide, rfl⟩
  exact ⟨hp, hreduced, hmask, unroll?_expanded hp hreduced .parallel hmask,
    unroll?_expanded hp hreduced .reduction hmask⟩

end Pattern
end AffineSearch
