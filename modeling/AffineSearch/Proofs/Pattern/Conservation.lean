import AffineSearch.Proofs.Expr.Total
import AffineSearch.Proofs.Pattern.Selection

/-! Each operand keeps the sum of its results. What a step leaves out was 0, and what it splits adds up. -/
namespace AffineSearch

namespace Step

theorem addedDim?_expand (kind : Kind) (mask : Mask) (numDims : Nat) :
    (expand kind mask).addedDim? numDims = some (kind.newDim numDims) := by
  cases kind <;> rfl

theorem pullBack_expand (kind : Kind) (mask : Mask) (numDims : Nat) (x : Point) :
    (expand kind mask).pullBack numDims x = x.removeDim (kind.newDim numDims) := by
  cases kind <;> rfl

end Step

namespace IndexMap
variable {numDims numSymbols : Nat} {m m' : IndexMap} {x : Point} {v : Int}

theorem KeepsValues.total? {back : Point → Point} (h : m.KeepsValues back m')
    (hv : Expr.total? (back x) m.results = some v) : Expr.total? x m'.results = some v := by
  unfold KeepsValues at h
  generalize m.results = es, m'.results = es' at h hv
  induction h generalizing v with
  | nil => exact hv
  | kept hkept _ ih =>
    obtain ⟨a, b, ha, hb, rfl⟩ := Expr.total?_cons_eq_some_iff.mp hv
    exact Expr.total?_cons_eq_some_iff.mpr ⟨a, b, hkept x a ha, ih hb, rfl⟩
  | gone hgone _ ih =>
    obtain ⟨a, b, ha, hb, rfl⟩ := Expr.total?_cons_eq_some_iff.mp hv
    rw [hgone x a ha, Int.zero_add]
    exact ih hb

theorem total?_swapResults {i j : Nat} (hm : (m.swapResults i j).toOption = some m')
    (hv : Expr.total? x m.results = some v) : Expr.total? x m'.results = some v := by
  obtain ⟨a, b, ha, hb, rfl⟩ := swapResults_toOption_eq_some_iff.mp hm
  obtain ⟨hi, rfl⟩ := List.getElem?_eq_some_iff.mp ha
  obtain ⟨hj, rfl⟩ := List.getElem?_eq_some_iff.mp hb
  exact Expr.total?_perm (List.set_set_perm hi hj).symm hv

theorem total?_place (kind : Kind) {new old : List Expr} {a b : Int} (hnew : Expr.total? x new = some a)
    (hold : Expr.total? x old = some b) : Expr.total? x (kind.place new old) = some (a + b) := by
  cases kind with
  | parallel => exact Expr.total?_append_eq_some_iff.mpr ⟨a, b, hnew, hold, rfl⟩
  | reduction => exact Expr.total?_append_eq_some_iff.mpr ⟨b, a, hold, hnew, Int.add_comm b a⟩

/-- The new dimension counts 0, selected or not. -/
theorem total?_widen? (h : m.Over numDims numSymbols) {kind : Kind} {isSelected : Bool}
    {mask : Mask} (hm : m.widen? kind numDims isSelected = some m')
    (hx : ∀ d ∈ (Step.expand kind mask).addedDim? numDims, x.dims d = 0)
    (hv : Expr.total? ((Step.expand kind mask).pullBack numDims x) m.results = some v) :
    Expr.total? x m'.results = some v := by
  obtain ⟨rfl, -, -⟩ := h
  rw [widen?_eq_widened, Option.some.injEq] at hm
  subst hm
  rw [Step.pullBack_expand] at hv
  have hshifted : Expr.total? x (m.results.map (·.makeRoom 1 (kind.newDim m.numDims))) = some v := by
    apply Expr.total?_map _ hv
    intro e _ w hw
    rwa [Expr.value?_makeRoom_one]
  have hzero : x.dims (kind.newDim m.numDims) = 0 := hx _ (Step.addedDim?_expand kind mask m.numDims)
  have hnew : Expr.total? x (if isSelected then [.dim (kind.newDim m.numDims)] else []) = some 0 := by
    cases isSelected with
    | false => rfl
    | true => exact Expr.total?_cons_eq_some_iff.mpr ⟨0, 0, congrArg some hzero, rfl, rfl⟩
  have htotal := total?_place kind hnew hshifted
  rwa [Int.zero_add] at htotal

theorem total?_splitSum? {position : Nat} (hm : m.splitSum? position = some m')
    (hv : Expr.total? x m.results = some v) : Expr.total? x m'.results = some v := by
  rcases splitSum?_eq_some_iff.mp hm with ⟨-, rfl⟩ | ⟨e, he, -, -, rfl⟩
  · exact hv
  · obtain ⟨hlt, rfl⟩ := List.getElem?_eq_some_iff.mp he
    rw [← List.take_append_drop position m.results, List.drop_eq_getElem_cons hlt] at hv
    obtain ⟨a, _, ha, hrest, rfl⟩ := Expr.total?_append_eq_some_iff.mp hv
    obtain ⟨b, c, hb, hc, rfl⟩ := Expr.total?_cons_eq_some_iff.mp hrest
    have hterms := Expr.total?_of_isSumOf (Expr.isSumOf_summands _) hb
    have hfront := Expr.total?_append_eq_some_iff.mpr ⟨a, b, ha, hterms, rfl⟩
    exact Expr.total?_append_eq_some_iff.mpr ⟨a + b, c, hfront, hc, Int.add_assoc a b c⟩

end IndexMap

namespace Step

theorem total?_onMap? {s : Step} {numDims numSymbols operand : Nat} {m m' : IndexMap} {x : Point}
    {v : Int} (h : m.Over numDims numSymbols) (hown : s.RemovesOwn numDims numSymbols)
    (hm : s.onMap? numDims operand m = some m') (hx : ∀ d ∈ s.addedDim? numDims, x.dims d = 0)
    (hv : Expr.total? (s.pullBack numDims x) m.results = some v) :
    Expr.total? x m'.results = some v := by
  cases s with
  | unroll d =>
    have hs : (unroll d).IsElimination := trivial
    exact (keepsValues_onMap? hs h hown hm).total? hv
  | dropSymbol s =>
    have hs : (dropSymbol s).IsElimination := trivial
    exact (keepsValues_onMap? hs h hown hm).total? hv
  | mergeDims d1 d2 =>
    have hs : (unroll d2).IsElimination := trivial
    have hon : (unroll d2).onMap? numDims operand m = some m' := hm
    exact (keepsValues_onMap? hs h hown hon).total? hv
  | permute i j mask =>
    simp only [onMap?] at hm
    split at hm
    · exact IndexMap.total?_swapResults hm hv
    · obtain rfl := Option.some.inj hm
      exact hv
  | expand kind mask => exact IndexMap.total?_widen? h hm hx hv
  | decompose position => exact IndexMap.total?_splitSum? hm hv

end Step

namespace Pattern

/-- Read an assignment behind the steps back to the front of them, with all added dimensions at 0. An
operand whose results have values there has the same sum of results behind the steps. -/
theorem replay?_conserves {p q : Pattern} {steps : List Step} (hp : p.WellFormed)
    (h : p.replay? steps = some q) {x : Point} (hx : Step.AddedAtZero p.numDims steps x) {k : Nat}
    {m : IndexMap} (hm : p.maps[k]? = some m) {v : Int}
    (hv : Expr.total? (Step.pullBackAll p.numDims steps x) m.results = some v) :
    ∃ m', q.maps[k]? = some m' ∧ Expr.total? x m'.results = some v := by
  induction steps generalizing p m with
  | nil =>
    obtain rfl : p = q := Option.some.inj h
    exact ⟨m, hm, hv⟩
  | cons s rest ih =>
    obtain ⟨r, hs, hr⟩ := exists_effect_of_replay? h
    obtain ⟨n, hn⟩ := exists_getElem?_maps hs.numOperands_eq hm
    obtain ⟨m₀, hm₀, hon⟩ := hs.exists_of_getElem? hn
    obtain rfl : m = m₀ := Option.some.inj (hm.symm.trans hm₀)
    have hover := hp.over (List.mem_of_getElem? hm)
    apply ih (hs.wellFormed hp) hr _ hn
    · rw [hs.numDims_eq]
      exact Step.total?_onMap? hover hs.removesOwn hon hx.2 hv
    · rw [hs.numDims_eq]
      exact hx.1

/-- The input of a convolution is read at 5 + 3 before and at 0, 5 and 3 after it. -/
theorem replay?_conserves_convolution :
    let steps : List Step := [.decompose 0, .dropSymbol 0, .expand .parallel ⟨[true, false, true]⟩]
    let q : Pattern := ⟨[⟨3, 0, [.dim 0, .dim 1, .dim 2]⟩, ⟨3, 0, [.dim 2]⟩, ⟨3, 0, [.dim 0, .dim 1]⟩],
      [.parallel, .parallel, .reduction]⟩
    let input : IndexMap := ⟨2, 1, [.binary .add (.binary .mul (.dim 0) (.symbol 0)) (.dim 1)]⟩
    let x : Point := ⟨([0, 5, 3].getD · 0), fun _ => 7⟩
    convolution.WellFormed ∧ convolution.replay? steps = some q ∧
      Step.AddedAtZero convolution.numDims steps x ∧ convolution.maps[0]? = some input ∧
      Expr.total? (Step.pullBackAll convolution.numDims steps x) input.results = some 8 ∧
      ∃ m', q.maps[0]? = some m' ∧ Expr.total? x m'.results = some 8 := by
  intro steps q input x
  have hp : convolution.WellFormed := by decide
  have hq : convolution.replay? steps = some q := by decide +kernel
  have hx : Step.AddedAtZero convolution.numDims steps x := by
    simp [Step.AddedAtZero, Step.addedDim?, Step.pullBackAll, steps, x]
  have hm : convolution.maps[0]? = some input := rfl
  have hv : Expr.total? (Step.pullBackAll convolution.numDims steps x) input.results = some 8 := by
    decide
  exact ⟨hp, hq, hx, hm, hv, replay?_conserves hp hq hx hm hv⟩

end Pattern
end AffineSearch
