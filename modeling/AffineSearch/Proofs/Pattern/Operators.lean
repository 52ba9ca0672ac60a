import AffineSearch.Proofs.Mask.Subsets
import AffineSearch.Step.Perform

/-! When each operator applies and what it makes of the maps, one by one. -/
namespace AffineSearch

theorem mapM_eq_some_iff {α β : Type} {f : α → Option β} {l : List α} {l' : List β} :
    l.mapM f = some l' ↔ l.map f = l'.map some := by
  induction l generalizing l' with
  | nil => cases l' <;> simp
  | cons a l ih =>
    rw [List.mapM_cons]
    cases ha : f a with
    | none => cases l' <;> simp [ha]
    | some b =>
      cases l' with
      | nil => cases hl : l.mapM f <;> simp
      | cons b' l' =>
        cases hl : l.mapM f with
        | none =>
          have hne : ¬l.map f = l'.map some := by rw [← ih, hl]; simp
          simp [hne]
        | some t =>
          have ht := ih.mp hl
          have hinj : t.map some = l'.map some ↔ t = l' :=
            List.map_inj_right fun _ _ => Option.some.inj
          simp [ha, ht, hinj]

/-- A partial function that yields `g` where it is allowed maps a list to its image under `g`, if at all. -/
theorem map_eq_map_some_iff {α β : Type} {f : α → Option β} {g : α → β} {allows : α → Prop}
    {l : List α} {l' : List β} (h : ∀ a b, f a = some b ↔ allows a ∧ b = g a) :
    l.map f = l'.map some ↔ (∀ a ∈ l, allows a) ∧ l' = l.map g := by
  induction l generalizing l' with
  | nil => cases l' <;> simp
  | cons a l ih =>
    cases l' with
    | nil => simp
    | cons b l' =>
      simp only [List.map_cons, List.cons.injEq, h, ih, List.forall_mem_cons]
      exact and_and_and_comm

theorem mapM_congr {α β : Type} {M : Type → Type} [Monad M] [LawfulMonad M] {f g : α → M β} {l : List α}
    (h : ∀ a ∈ l, f a = g a) : l.mapM f = l.mapM g := by
  induction l with
  | nil => rfl
  | cons a l ih =>
    rw [List.mapM_cons, List.mapM_cons, h a (by simp), ih fun b hb => h b (by simp [hb])]

namespace Pattern
variable {p q : Pattern} {mask mask' : Mask}

private theorem map_mk_eq_some {maps : Option (List IndexMap)} {kinds : List Kind} :
    maps.map (fun ms => (⟨ms, kinds⟩ : Pattern)) = some q ↔ maps = some q.maps ∧ q.kinds = kinds := by
  obtain ⟨ms, ks⟩ := q
  cases maps <;> simp [eq_comm]

theorem unroll?_eq_some_iff {d : Nat} : p.unroll? d = some q ↔ d < p.numDims ∧
    p.maps.map (·.eliminateDim? d) = q.maps.map some ∧ q.kinds = p.kinds.eraseIdx d := by
  unfold unroll?
  by_cases h : d < p.numDims
  · simp only [h, if_true, true_and, map_mk_eq_some, mapM_eq_some_iff]
  · simp [h]

theorem dropSymbol?_eq_some_iff {s : Nat} : p.dropSymbol? s = some q ↔ s < p.numSymbols ∧
    p.maps.map (·.eliminateSymbol? s) = q.maps.map some ∧ q.kinds = p.kinds := by
  unfold dropSymbol?
  by_cases h : s < p.numSymbols
  · simp only [h, if_true, true_and, map_mk_eq_some, mapM_eq_some_iff]
  · simp [h]

theorem mergeDims?_eq_some_iff {d1 d2 : Nat} : p.mergeDims? d1 d2 = some q ↔
    (d1 ≠ d2 ∧ d1 < p.numDims ∧ p.kinds[d1]? = p.kinds[d2]? ∧ p.maps.all (·.isMergeable d1 d2) = true) ∧
      p.unroll? d2 = some q := by
  unfold mergeDims?
  split
  · next h => simp [h]
  · next h => simp only [reduceCtorEq, false_iff, not_and]; exact fun h' _ => h h'

theorem mapSelected?_eq_some_iff {f : Bool → IndexMap → Option IndexMap} {maps : List IndexMap} :
    p.mapSelected? mask f = some maps ↔ mask.selectsBelow p.numOperands = true ∧
      p.maps.zipIdx.map (fun (m, k) => f (mask.isSelected k) m) = maps.map some := by
  unfold mapSelected?
  split
  · next h => rw [mapM_eq_some_iff, and_iff_right h]
  · next h => simp [h]

theorem mapSelected?_congr {f : Bool → IndexMap → Option IndexMap}
    (h : ∀ k < p.numOperands, mask.isSelected k = mask'.isSelected k) :
    p.mapSelected? mask f = p.mapSelected? mask' f := by
  have hsel : mask.selectsBelow p.numOperands = mask'.selectsBelow p.numOperands := by
    rw [Bool.eq_iff_iff, Mask.selectsBelow_iff, Mask.selectsBelow_iff]
    exact exists_congr fun k => and_congr_right fun hk => by rw [h k hk]
  unfold mapSelected?
  rw [hsel]
  split
  · apply mapM_congr
    intro (m, k) hm
    have hk : k < p.maps.length := by simpa using List.snd_lt_of_mem_zipIdx hm
    simp only [h k hk]
  · rfl

theorem permute?_eq_some_iff {i j : Nat} : p.permute? i j mask = some q ↔
    mask.selectsBelow p.numOperands = true ∧ q.kinds = p.kinds ∧
      p.maps.zipIdx.map (fun (m, k) =>
        if mask.isSelected k then (m.swapResults i j).toOption else some m) = q.maps.map some := by
  unfold permute?
  rw [map_mk_eq_some, mapSelected?_eq_some_iff, and_assoc]
  exact and_congr_right fun _ => and_comm

theorem expand?_eq_some_iff {kind : Kind} : p.expand? kind mask = some q ↔
    mask.selectsBelow p.numOperands = true ∧
      (q.kinds = match kind with
        | .parallel => kind :: p.kinds
        | .reduction => p.kinds ++ [kind]) ∧
      p.maps.zipIdx.map (fun (m, k) => m.widen? kind p.numDims (mask.isSelected k)) =
        q.maps.map some := by
  unfold expand?
  rw [map_mk_eq_some, mapSelected?_eq_some_iff, and_assoc]
  exact and_congr_right fun _ => and_comm

theorem decompose?_eq_some_iff {position : Nat} : p.decompose? position = some q ↔
    p.maps.any (·.hasSumAt position) = true ∧
      p.maps.map (·.splitSum? position) = q.maps.map some ∧ q.kinds = p.kinds := by
  unfold decompose?
  split
  · next h => simp only [h, true_and, map_mk_eq_some, mapM_eq_some_iff]
  · next h => simp [h]

theorem numOperands_eq_length {α : Type} {l : List α} {f : α → Option IndexMap}
    (h : l.map f = q.maps.map some) : q.numOperands = l.length := by
  have hlen := congrArg List.length h
  rw [List.length_map, List.length_map] at hlen
  exact hlen.symm

end Pattern

theorem Step.numOperands_of_perform? {step : Step} {p q : Pattern} (h : step.perform? p = some q) :
    q.numOperands = p.numOperands := by
  have hzip : p.maps.zipIdx.length = p.numOperands := List.length_zipIdx
  cases step with
  | unroll d => exact Pattern.numOperands_eq_length (Pattern.unroll?_eq_some_iff.mp h).2.1
  | dropSymbol s => exact Pattern.numOperands_eq_length (Pattern.dropSymbol?_eq_some_iff.mp h).2.1
  | mergeDims d1 d2 =>
    have hu := (Pattern.mergeDims?_eq_some_iff.mp h).2
    exact Pattern.numOperands_eq_length (Pattern.unroll?_eq_some_iff.mp hu).2.1
  | permute i j mask =>
    rw [← hzip]
    exact Pattern.numOperands_eq_length (Pattern.permute?_eq_some_iff.mp h).2.2
  | expand kind mask =>
    rw [← hzip]
    exact Pattern.numOperands_eq_length (Pattern.expand?_eq_some_iff.mp h).2.2
  | decompose position =>
    exact Pattern.numOperands_eq_length (Pattern.decompose?_eq_some_iff.mp h).2.1

end AffineSearch
