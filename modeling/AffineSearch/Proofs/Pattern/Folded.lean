import AffineSearch.Proofs.Expr.Folded
import AffineSearch.Proofs.IndexMap.Specialize
import AffineSearch.Proofs.Pattern.Invariant

/-! Steps keep results folded, and eliminations fold what was not. -/
namespace AffineSearch

def IndexMap.IsFolded (m : IndexMap) : Prop := ∀ e ∈ m.results, e.IsFolded

instance (m : IndexMap) : Decidable m.IsFolded :=
  inferInstanceAs (Decidable (∀ e ∈ m.results, e.IsFolded))

def Pattern.IsFolded (p : Pattern) : Prop := ∀ m ∈ p.maps, m.IsFolded

instance (p : Pattern) : Decidable p.IsFolded := inferInstanceAs (Decidable (∀ m ∈ p.maps, m.IsFolded))

namespace IndexMap
variable {m m' : IndexMap}

/-- Projection folds on the way up, whatever it is applied to. -/
theorem isFolded_projectDims (m : IndexMap) (positions : List Nat) :
    (m.projectDims positions).IsFolded := by
  intro e he
  obtain ⟨e', -, rfl⟩ := List.mem_map.mp he
  rw [Expr.isFolded_iff_redexFree]
  exact Expr.redexFree_substitute_leaves (Expr.magnitude_projected_le Expr.magnitude_dim_le)
    Expr.magnitude_symbol_le e'

theorem isFolded_projectSymbols (m : IndexMap) (positions : List Nat) :
    (m.projectSymbols positions).IsFolded := by
  intro e he
  obtain ⟨e', -, rfl⟩ := List.mem_map.mp he
  rw [Expr.isFolded_iff_redexFree]
  exact Expr.redexFree_substitute_leaves Expr.magnitude_dim_le
    (Expr.magnitude_projected_le Expr.magnitude_symbol_le) e'

theorem IsFolded.dropZeros? (h : m.IsFolded) (hm : m.dropZeros? = some m') : m'.IsFolded := by
  obtain ⟨rfl, -⟩ := dropZeros?_eq_some_iff.mp hm
  intro e he
  exact h e (List.mem_of_mem_filter he)

theorem isFolded_eliminateDim? {d : Nat} (hm : m.eliminateDim? d = some m') : m'.IsFolded :=
  (isFolded_projectDims _ _).dropZeros? hm

theorem isFolded_eliminateSymbol? {s : Nat} (hm : m.eliminateSymbol? s = some m') : m'.IsFolded :=
  (isFolded_projectSymbols _ _).dropZeros? hm

theorem IsFolded.swapResults (h : m.IsFolded) {i j : Nat} (hm : (m.swapResults i j).toOption = some m') :
    m'.IsFolded := by
  obtain ⟨a, b, ha, hb, rfl⟩ := swapResults_toOption_eq_some_iff.mp hm
  intro e he
  rcases List.mem_or_eq_of_mem_set he with he | rfl
  · rcases List.mem_or_eq_of_mem_set he with he | rfl
    · exact h e he
    · exact h _ (List.mem_of_getElem? hb)
  · exact h _ (List.mem_of_getElem? ha)

theorem IsFolded.makeRoom (h : m.IsFolded) (count offset : Nat) : (m.makeRoom count offset).IsFolded := by
  intro e he
  obtain ⟨e', he', rfl⟩ := List.mem_map.mp he
  have hfree := Expr.isFolded_iff_redexFree.mp (h e' he')
  exact Expr.isFolded_iff_redexFree.mpr (hfree.makeRoom count offset)

theorem IsFolded.insertResult (h : m.IsFolded) {e : Expr} (he : e.IsFolded) (position : Nat)
    (hm : (m.insertResult e position).toOption = some m') : m'.IsFolded := by
  obtain ⟨hp, -, rfl⟩ := insertResult_toOption_eq_some_iff.mp hm
  intro t ht
  rcases (List.mem_insertIdx hp).mp ht with rfl | ht
  · exact he
  · exact h t ht

theorem IsFolded.widen? (h : m.IsFolded) {kind : Kind} {numDims : Nat} {isSelected : Bool}
    (hm : m.widen? kind numDims isSelected = some m') : m'.IsFolded := by
  cases kind with
  | parallel =>
    have hwide := h.makeRoom 1 0
    cases isSelected with
    | false => exact Option.some.inj hm ▸ hwide
    | true => exact hwide.insertResult (Expr.isFolded_dim 0) 0 hm
  | reduction =>
    have hwide := h.makeRoom 1 numDims
    cases isSelected with
    | false => exact Option.some.inj hm ▸ hwide
    | true => exact hwide.insertResult (Expr.isFolded_dim numDims) (m.makeRoom 1 numDims).numResults hm

theorem IsFolded.splitSum? (h : m.IsFolded) {position : Nat} (hm : m.splitSum? position = some m') :
    m'.IsFolded := by
  rcases splitSum?_eq_some_iff.mp hm with ⟨-, rfl⟩ | ⟨e, he, -, -, rfl⟩
  · exact h
  · intro t ht
    simp only [List.mem_append] at ht
    rcases ht with (ht | ht) | ht
    · exact h t (List.mem_of_mem_take ht)
    · have hfree := Expr.isFolded_iff_redexFree.mp (h e (List.mem_of_getElem? he))
      exact Expr.isFolded_iff_redexFree.mpr (hfree.of_mem_summands ht)
    · exact h t (List.mem_of_mem_drop ht)

end IndexMap

namespace Step
variable {s : Step} {p q : Pattern}

theorem isFolded_of_onMap? {numDims operand : Nat} {m m' : IndexMap}
    (hm : s.onMap? numDims operand m = some m') (h : s.removesVariable = true ∨ m.IsFolded) :
    m'.IsFolded := by
  have hkept : s.removesVariable = false → m.IsFolded := fun hs => h.resolve_left (by simp [hs])
  cases s with
  | unroll d => exact IndexMap.isFolded_eliminateDim? hm
  | dropSymbol s => exact IndexMap.isFolded_eliminateSymbol? hm
  | mergeDims d1 d2 => exact IndexMap.isFolded_eliminateDim? hm
  | permute i j mask =>
    simp only [onMap?] at hm
    split at hm
    · exact (hkept rfl).swapResults hm
    · obtain rfl := Option.some.inj hm
      exact hkept rfl
  | expand kind mask => exact (hkept rfl).widen? hm
  | decompose position => exact (hkept rfl).splitSum? hm

theorem Effect.isFolded (h : s.Effect p q) (hp : s.removesVariable = true ∨ p.IsFolded) : q.IsFolded := by
  intro m' hm'
  obtain ⟨k, m, hm, hon⟩ := h.exists_of_mem hm'
  exact isFolded_of_onMap? hon (hp.imp_right fun hfolded => hfolded m hm)

end Step

namespace Pattern
variable {p q : Pattern}

/-- All results of a folded pattern stay folded. From the first elimination on they are folded even if they
were not before. -/
theorem replay?_folded {steps : List Step} (h : p.replay? steps = some q) :
    (p.IsFolded → q.IsFolded) ∧ ((∃ s ∈ steps, s.removesVariable = true) → q.IsFolded) := by
  induction steps generalizing p with
  | nil =>
    obtain rfl : p = q := Option.some.inj h
    exact ⟨fun hp => hp, by simp⟩
  | cons s rest ih =>
    obtain ⟨r, hs, hr⟩ := exists_effect_of_replay? h
    obtain ⟨hkeep, helim⟩ := ih hr
    constructor
    · intro hp
      exact hkeep (hs.isFolded (Or.inr hp))
    · rintro ⟨t, ht, hremoves⟩
      rcases List.mem_cons.mp ht with rfl | ht
      · exact hkeep (hs.isFolded (Or.inl hremoves))
      · exact helim ⟨t, ht, hremoves⟩

/-- A sum that is taken apart was folded and leaves folded terms. One that is not folded is so once another
dimension is gone. -/
theorem replay?_folded_convolution :
    let steps : List Step := [.expand .reduction ⟨[true]⟩, .decompose 0, .permute 0 1 ⟨[true]⟩]
    let input : IndexMap := ⟨3, 1, [.dim 1, .binary .mul (.dim 0) (.symbol 0), .dim 2]⟩
    let q : Pattern := ⟨[input, ⟨3, 1, [.dim 1]⟩, ⟨3, 1, [.dim 0]⟩], [.parallel, .reduction, .reduction]⟩
    let raw : Pattern := ⟨[⟨2, 0, [.binary .add (.const 2) (.binary .mul (.dim 1) (.const 1))]⟩],
      [.parallel, .parallel]⟩
    let r : Pattern := ⟨[⟨1, 0, [.binary .add (.dim 0) (.const 2)]⟩], [.parallel]⟩
    (convolution.replay? steps = some q ∧ convolution.IsFolded ∧ q.IsFolded) ∧
      raw.replay? [.unroll 0] = some r ∧ ¬raw.IsFolded ∧ r.IsFolded := by
  intro steps input q raw r
  have hq : convolution.replay? steps = some q := by decide +kernel
  have hfolded : convolution.IsFolded := by decide
  have hr : raw.replay? [.unroll 0] = some r := by decide +kernel
  have hraw : ¬raw.IsFolded := by decide
  refine ⟨⟨hq, hfolded, (replay?_folded hq).1 hfolded⟩, hr, hraw, ?_⟩
  exact (replay?_folded hr).2 ⟨.unroll 0, by decide, rfl⟩

end Pattern
end AffineSearch
