import AffineSearch.Proofs.Pattern.Operators
import AffineSearch.Step.Variables

/-! What a step that applies does to the kinds and to the map of each operand. -/
namespace AffineSearch

theorem getElem?_eq_bind {α β : Type} {f : α → Option β} {l : List α} {l' : List β}
    (h : l.map f = l'.map some) (k : Nat) : l'[k]? = l[k]?.bind f := by
  have hk := congrArg (·[k]?) h
  simp only [List.getElem?_map] at hk
  cases hl : l[k]? with
  | none =>
    rw [hl] at hk
    exact Option.map_eq_none_iff.mp hk.symm
  | some a =>
    cases hl' : l'[k]? with
    | none => simp [hl, hl'] at hk
    | some b =>
      rw [hl, hl', Option.map_some, Option.map_some, Option.some.injEq] at hk
      exact hk.symm

namespace Step

/-- What becomes of the map of one operand, where there are `numDims` dimensions. -/
def onMap? (numDims operand : Nat) : Step → IndexMap → Option IndexMap
  | unroll d, m | mergeDims _ d, m => m.eliminateDim? d
  | dropSymbol s, m => m.eliminateSymbol? s
  | permute i j mask, m => if mask.isSelected operand then (m.swapResults i j).toOption else some m
  | expand kind mask, m => m.widen? kind numDims (mask.isSelected operand)
  | decompose position, m => m.splitSum? position

def onKinds : Step → List Kind → List Kind
  | unroll d, kinds | mergeDims _ d, kinds => kinds.eraseIdx d
  | expand .parallel _, kinds => .parallel :: kinds
  | expand .reduction _, kinds => kinds ++ [.reduction]
  | dropSymbol _, kinds | permute _ _ _, kinds | decompose _, kinds => kinds

/-- Whether a variable that the step removes is there. -/
def RemovesOwn (numDims numSymbols : Nat) : Step → Prop
  | unroll d | mergeDims _ d => d < numDims
  | dropSymbol s => s < numSymbols
  | permute _ _ _ | expand _ _ | decompose _ => True

structure Effect (s : Step) (p q : Pattern) : Prop where
  removesOwn : s.RemovesOwn p.numDims p.numSymbols
  numOperands_eq : q.numOperands = p.numOperands
  kinds_eq : q.kinds = s.onKinds p.kinds
  getElem?_maps : ∀ k, q.maps[k]? = p.maps[k]?.bind (s.onMap? p.numDims k)

theorem effect_of_perform? {s : Step} {p q : Pattern} (h : s.perform? p = some q) : s.Effect p q := by
  have hunroll : ∀ d : Nat, p.unroll? d = some q → d < p.numDims ∧ q.kinds = p.kinds.eraseIdx d ∧
      ∀ k : Nat, q.maps[k]? = p.maps[k]?.bind (IndexMap.eliminateDim? · d) := by
    intro d hu
    obtain ⟨hd, hm, hk⟩ := Pattern.unroll?_eq_some_iff.mp hu
    exact ⟨hd, hk, getElem?_eq_bind hm⟩
  have hzip : ∀ f : IndexMap × Nat → Option IndexMap, p.maps.zipIdx.map f = q.maps.map some →
      ∀ k : Nat, q.maps[k]? = p.maps[k]?.bind fun m => f (m, k) := by
    intro f hf k
    rw [getElem?_eq_bind hf, List.getElem?_zipIdx, Option.bind_map, Nat.zero_add]
    rfl
  have hlen := numOperands_of_perform? h
  cases s with
  | unroll d =>
    obtain ⟨hd, hk, hm⟩ := hunroll d h
    exact ⟨hd, hlen, hk, hm⟩
  | dropSymbol s =>
    obtain ⟨hs, hm, hk⟩ := Pattern.dropSymbol?_eq_some_iff.mp h
    exact ⟨hs, hlen, hk, getElem?_eq_bind hm⟩
  | mergeDims d1 d2 =>
    obtain ⟨hd, hk, hm⟩ := hunroll d2 (Pattern.mergeDims?_eq_some_iff.mp h).2
    exact ⟨hd, hlen, hk, hm⟩
  | permute i j mask =>
    obtain ⟨-, hk, hm⟩ := Pattern.permute?_eq_some_iff.mp h
    exact ⟨trivial, hlen, hk, hzip _ hm⟩
  | expand kind mask =>
    obtain ⟨-, hk, hm⟩ := Pattern.expand?_eq_some_iff.mp h
    exact ⟨trivial, hlen, by cases kind <;> exact hk, hzip _ hm⟩
  | decompose position =>
    obtain ⟨-, hm, hk⟩ := Pattern.decompose?_eq_some_iff.mp h
    exact ⟨trivial, hlen, hk, getElem?_eq_bind hm⟩

namespace Effect
variable {s : Step} {p q : Pattern} {k : Nat} {m m' : IndexMap}

theorem numDims_eq (h : s.Effect p q) : q.numDims = s.dimsAfter p.numDims := by
  have hkinds : q.numDims = (s.onKinds p.kinds).length := congrArg List.length h.kinds_eq
  have hown := h.removesOwn
  rw [hkinds]
  cases s with
  | unroll d => exact List.length_eraseIdx_of_lt hown
  | dropSymbol s => rfl
  | mergeDims d1 d2 => exact List.length_eraseIdx_of_lt hown
  | permute i j mask => rfl
  | expand kind mask => cases kind <;> simp [onKinds, dimsAfter, removesDim, addsDim, Pattern.numDims]
  | decompose position => rfl

theorem maps_ne_nil (h : s.Effect p q) (hp : p.maps ≠ []) : q.maps ≠ [] := by
  have hlen : q.maps.length = p.maps.length := h.numOperands_eq
  rw [← List.length_pos_iff, hlen]
  exact List.length_pos_iff.mpr hp

theorem exists_of_getElem? (h : s.Effect p q) (hq : q.maps[k]? = some m') :
    ∃ m, p.maps[k]? = some m ∧ s.onMap? p.numDims k m = some m' := by
  rw [h.getElem?_maps, Option.bind_eq_some_iff] at hq
  exact hq

theorem exists_of_mem (h : s.Effect p q) (hq : m' ∈ q.maps) :
    ∃ k, ∃ m ∈ p.maps, s.onMap? p.numDims k m = some m' := by
  obtain ⟨k, hk⟩ := List.mem_iff_getElem?.mp hq
  obtain ⟨m, hm, hon⟩ := h.exists_of_getElem? hk
  exact ⟨k, m, List.mem_of_getElem? hm, hon⟩

end Effect
end Step
end AffineSearch
