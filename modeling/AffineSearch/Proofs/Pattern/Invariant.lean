import AffineSearch.Proofs.Expr.Summands
import AffineSearch.Proofs.IndexMap.Scope
import AffineSearch.Proofs.Pattern.Permutation
import AffineSearch.Proofs.Step.Effect

/-! Steps keep patterns well-formed and leave no operand without results that had some. -/
namespace AffineSearch

/-- The domain has these sizes and the results stay within it. -/
structure IndexMap.Over (numDims numSymbols : Nat) (m : IndexMap) : Prop where
  numDims_eq : m.numDims = numDims
  numSymbols_eq : m.numSymbols = numSymbols
  inScope : m.InScope

namespace IndexMap.Over
variable {numDims numSymbols : Nat} {m m' : IndexMap}

theorem eliminateDim? (h : m.Over numDims numSymbols) {d : Nat} (hd : d < numDims)
    (hm : m.eliminateDim? d = some m') : m'.Over (numDims - 1) numSymbols ∧ m'.results ≠ [] := by
  obtain ⟨rfl, hne⟩ := dropZeros?_eq_some_iff.mp hm
  obtain ⟨rfl, rfl, hscope⟩ := h
  have hzero : (Expr.const 0).InScope m.numDims m.numSymbols := trivial
  have hrepl : (m.replace (.dim d) (.const 0)).InScope := inScope_replace hscope hzero
  have hproj := inScope_projectDims hrepl [d]
  refine ⟨⟨?_, rfl, fun e he => hproj e (List.mem_of_mem_filter he)⟩, hne⟩
  exact congrArg (m.numDims - ·) (countBelow_singleton_of_lt hd)

theorem eliminateSymbol? (h : m.Over numDims numSymbols) {s : Nat} (hs : s < numSymbols)
    (hm : m.eliminateSymbol? s = some m') : m'.Over numDims (numSymbols - 1) ∧ m'.results ≠ [] := by
  obtain ⟨rfl, hne⟩ := dropZeros?_eq_some_iff.mp hm
  obtain ⟨rfl, rfl, hscope⟩ := h
  have hone : (Expr.const 1).InScope m.numDims m.numSymbols := trivial
  have hrepl : (m.replace (.symbol s) (.const 1)).InScope := inScope_replace hscope hone
  have hproj := inScope_projectSymbols hrepl [s]
  refine ⟨⟨rfl, ?_, fun e he => hproj e (List.mem_of_mem_filter he)⟩, hne⟩
  exact congrArg (m.numSymbols - ·) (countBelow_singleton_of_lt hs)

theorem swapResults (h : m.Over numDims numSymbols) {i j : Nat}
    (hm : (m.swapResults i j).toOption = some m') :
    m'.Over numDims numSymbols ∧ m'.results.length = m.results.length := by
  obtain ⟨a, b, ha, hb, rfl⟩ := swapResults_toOption_eq_some_iff.mp hm
  refine ⟨⟨h.numDims_eq, h.numSymbols_eq, ?_⟩, by simp⟩
  intro e he
  rcases List.mem_or_eq_of_mem_set he with he | rfl
  · rcases List.mem_or_eq_of_mem_set he with he | rfl
    · exact h.inScope e he
    · exact h.inScope _ (List.mem_of_getElem? hb)
  · exact h.inScope _ (List.mem_of_getElem? ha)

theorem widen? (h : m.Over numDims numSymbols) {kind : Kind} {isSelected : Bool}
    (hm : m.widen? kind numDims isSelected = some m') :
    m'.Over (numDims + 1) numSymbols ∧ m.results.length ≤ m'.results.length := by
  obtain ⟨rfl, rfl, hscope⟩ := h
  rw [widen?_eq_widened, Option.some.injEq] at hm
  subst hm
  refine ⟨⟨rfl, rfl, ?_⟩, by simp [widened]⟩
  intro e he
  rcases Kind.mem_place.mp he with he | he
  · have hnew : e = .dim (kind.newDim m.numDims) := by cases isSelected <;> simp_all
    rw [hnew]
    exact Nat.lt_succ_of_le (kind.newDim_le m.numDims)
  · exact inScope_makeRoom hscope 1 (kind.newDim m.numDims) e he

theorem splitSum? (h : m.Over numDims numSymbols) {position : Nat}
    (hm : m.splitSum? position = some m') :
    m'.Over numDims numSymbols ∧ m.results.length ≤ m'.results.length := by
  rcases splitSum?_eq_some_iff.mp hm with ⟨-, rfl⟩ | ⟨e, he, -, hscope, rfl⟩
  · exact ⟨h, Nat.le_refl _⟩
  · refine ⟨⟨h.numDims_eq, h.numSymbols_eq, hscope⟩, ?_⟩
    have hpos := e.isSumOf_summands.length_pos
    have hlt := (List.getElem?_eq_some_iff.mp he).1
    simp only [List.length_append, List.length_take, List.length_drop]
    omega

end IndexMap.Over

theorem Pattern.WellFormed.over {p : Pattern} (h : p.WellFormed) {m : IndexMap} (hm : m ∈ p.maps) :
    m.Over p.numDims p.numSymbols :=
  ⟨h.numDims_eq m hm, h.numSymbols_eq m hm, h.inScope m hm⟩

namespace Step
variable {s : Step} {p q : Pattern}

/-- An elimination fails rather than leave no results. All other steps lose none. -/
theorem over_of_onMap? {numDims numSymbols operand : Nat} {m m' : IndexMap}
    (h : m.Over numDims numSymbols) (hown : s.RemovesOwn numDims numSymbols)
    (hm : s.onMap? numDims operand m = some m') :
    m'.Over (s.dimsAfter numDims) (s.symbolsAfter numSymbols) ∧
      (m'.results ≠ [] ∨ s.removesVariable = false ∧ m.results.length ≤ m'.results.length) := by
  cases s with
  | unroll d => exact (h.eliminateDim? hown hm).imp_right Or.inl
  | dropSymbol s => exact (h.eliminateSymbol? hown hm).imp_right Or.inl
  | mergeDims d1 d2 => exact (h.eliminateDim? hown hm).imp_right Or.inl
  | permute i j mask =>
    simp only [onMap?] at hm
    split at hm
    · obtain ⟨hover, hlen⟩ := h.swapResults hm
      exact ⟨hover, Or.inr ⟨rfl, hlen.ge⟩⟩
    · obtain rfl := Option.some.inj hm
      exact ⟨h, Or.inr ⟨rfl, Nat.le_refl _⟩⟩
  | expand kind mask => exact (h.widen? hm).imp_right fun hlen => Or.inr ⟨rfl, hlen⟩
  | decompose position => exact (h.splitSum? hm).imp_right fun hlen => Or.inr ⟨rfl, hlen⟩

theorem Effect.over (h : s.Effect p q) (hp : p.WellFormed) {m' : IndexMap} (hm : m' ∈ q.maps) :
    m'.Over q.numDims (s.symbolsAfter p.numSymbols) := by
  obtain ⟨k, m, hm, hon⟩ := h.exists_of_mem hm
  rw [h.numDims_eq]
  exact (over_of_onMap? (hp.over hm) h.removesOwn hon).1

theorem Effect.numSymbols_eq (h : s.Effect p q) (hp : p.WellFormed) :
    q.numSymbols = s.symbolsAfter p.numSymbols := by
  obtain ⟨m, rest, hmaps⟩ := List.exists_cons_of_ne_nil (h.maps_ne_nil hp.maps_ne_nil)
  have hm : m ∈ q.maps := hmaps ▸ List.mem_cons_self
  rw [Pattern.numSymbols, hmaps]
  exact (h.over hp hm).numSymbols_eq

theorem Effect.wellFormed (h : s.Effect p q) (hp : p.WellFormed) : q.WellFormed where
  maps_ne_nil := h.maps_ne_nil hp.maps_ne_nil
  numDims_eq _ hm := (h.over hp hm).numDims_eq
  numSymbols_eq _ hm := (h.over hp hm).numSymbols_eq.trans (h.numSymbols_eq hp).symm
  inScope _ hm := (h.over hp hm).inScope

theorem Effect.results_ne_nil (h : s.Effect p q) (hp : p.WellFormed) {k : Nat} {m m' : IndexMap}
    (hm : p.maps[k]? = some m) (hm' : q.maps[k]? = some m')
    (hne : s.removesVariable = true ∨ m.results ≠ []) : m'.results ≠ [] := by
  obtain ⟨n, hn, hon⟩ := h.exists_of_getElem? hm'
  obtain rfl : m = n := Option.some.inj (hm.symm.trans hn)
  have hover := hp.over (List.mem_of_getElem? hm)
  rcases (over_of_onMap? hover h.removesOwn hon).2 with hres | ⟨hkeeps, hlen⟩
  · exact hres
  · have hpos : 0 < m.results.length := by
      rcases hne with hremoves | hne
      · rw [hkeeps] at hremoves
        cases hremoves
      · exact List.length_pos_iff.mpr hne
    exact List.length_pos_iff.mp (Nat.lt_of_lt_of_le hpos hlen)

end Step

namespace Pattern
variable {p q : Pattern}

/-- Of one dimension and with a stride: the input, the kernel and the output. -/
def convolution : Pattern :=
  ⟨[⟨2, 1, [.binary .add (.binary .mul (.dim 0) (.symbol 0)) (.dim 1)]⟩, ⟨2, 1, [.dim 1]⟩,
    ⟨2, 1, [.dim 0]⟩], [.parallel, .reduction]⟩

theorem exists_effect_of_replay? {s : Step} {rest : List Step} (h : p.replay? (s :: rest) = some q) :
    ∃ r, s.Effect p r ∧ r.replay? rest = some q := by
  obtain ⟨r, hr, hrest⟩ := Option.bind_eq_some_iff.mp h
  exact ⟨r, Step.effect_of_perform? hr, hrest⟩

theorem exists_getElem?_maps (h : q.numOperands = p.numOperands) {k : Nat} {m : IndexMap}
    (hm : p.maps[k]? = some m) : ∃ m', q.maps[k]? = some m' := by
  have hlen : q.maps.length = p.maps.length := h
  have hk : k < p.maps.length := (List.getElem?_eq_some_iff.mp hm).1
  exact ⟨_, List.getElem?_eq_getElem (by omega)⟩

/-- Whatever is performed on a well-formed pattern, the result is well-formed and has as many operands.
No operand loses all of its results, and behind an elimination none is without any. -/
theorem replay?_wellFormed {steps : List Step} (hp : p.WellFormed) (h : p.replay? steps = some q) :
    q.WellFormed ∧ q.numOperands = p.numOperands ∧
      (∀ (k : Nat) (m m' : IndexMap), p.maps[k]? = some m → q.maps[k]? = some m' →
        m.results ≠ [] → m'.results ≠ []) ∧
      ((∃ s ∈ steps, s.removesVariable = true) → ∀ m ∈ q.maps, m.results ≠ []) := by
  induction steps generalizing p with
  | nil =>
    obtain rfl : p = q := Option.some.inj h
    refine ⟨hp, rfl, ?_, by simp⟩
    intro k m m' hm hm' hne
    obtain rfl : m = m' := Option.some.inj (hm.symm.trans hm')
    exact hne
  | cons s rest ih =>
    obtain ⟨r, hs, hr⟩ := exists_effect_of_replay? h
    obtain ⟨hq, hlen, hkeep, helim⟩ := ih (hs.wellFormed hp) hr
    refine ⟨hq, hlen.trans hs.numOperands_eq, ?_, ?_⟩
    · intro k m m' hm hm' hne
      obtain ⟨n, hn⟩ := exists_getElem?_maps hs.numOperands_eq hm
      exact hkeep k n m' hn hm' (hs.results_ne_nil hp hm hn (Or.inr hne))
    · intro hex m' hm'
      obtain ⟨t, ht, hremoves⟩ := hex
      rcases List.mem_cons.mp ht with rfl | ht
      · obtain ⟨k, hk⟩ := List.mem_iff_getElem?.mp hm'
        obtain ⟨n, hn⟩ := exists_getElem?_maps hlen.symm hk
        obtain ⟨m, hm, -⟩ := hs.exists_of_getElem? hn
        exact hkeep k n m' hn hk (hs.results_ne_nil hp hm hn (Or.inl hremoves))
      · exact helim ⟨t, ht, hremoves⟩ m' hm'

theorem replay?_wellFormed_convolution :
    let steps : List Step := [.decompose 0, .dropSymbol 0, .expand .parallel ⟨[true, false, true]⟩,
      .permute 0 1 ⟨[true]⟩, .unroll 0]
    let q : Pattern := ⟨[⟨2, 0, [.dim 0, .dim 1]⟩, ⟨2, 0, [.dim 1]⟩, ⟨2, 0, [.dim 0]⟩],
      [.parallel, .reduction]⟩
    convolution.WellFormed ∧ convolution.replay? steps = some q ∧ q.WellFormed ∧
      ∀ m ∈ q.maps, m.results ≠ [] := by
  intro steps q
  have hp : convolution.WellFormed := by decide
  have hq : convolution.replay? steps = some q := by decide +kernel
  obtain ⟨hwf, -, -, hne⟩ := replay?_wellFormed hp hq
  exact ⟨hp, hq, hwf, hne ⟨.dropSymbol 0, by decide, rfl⟩⟩

end Pattern
end AffineSearch
