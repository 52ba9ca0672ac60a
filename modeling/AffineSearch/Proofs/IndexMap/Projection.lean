import AffineSearch.Proofs.Expr.Substitution
import AffineSearch.Proofs.Pattern.Folded
import Mathlib.Data.List.Forall2

/-! What a projection makes of the results of a map. The removed variables read 0 there and the survivors are
numbered anew in their old order. Dimensions that a shift has added are unused, so to project them out takes the
shift back. -/
namespace AffineSearch

/-- The variables that a projection leaves, in their order. -/
def survivors (count : Nat) (positions : List Nat) : List Nat :=
  (List.range count).filter (· ∉ positions)

/-- An assignment to the new domain, as one to the old: a removed variable has 0, and a survivor has what the new
domain gives to its place among the survivors. -/
def spread (count : Nat) (positions : List Nat) (y : Nat → Int) (p : Nat) : Int :=
  if p ∈ positions then 0 else y ((survivors count positions).idxOf p)

variable {count p bound : Nat} {positions positions' : List Nat}

theorem survivors_congr (h : ∀ p < count, p ∈ positions ↔ p ∈ positions') :
    survivors count positions = survivors count positions' := by
  apply List.filter_congr
  intro p hp
  rw [decide_eq_decide, h p (List.mem_range.mp hp)]

theorem length_survivors (count : Nat) (positions : List Nat) :
    (survivors count positions).length = count - countBelow count positions := by
  have hsplit := List.length_eq_countP_add_countP (· ∈ positions) (l := List.range count)
  have hremoved : (List.range count).countP (· ∈ positions) = countBelow count positions := by
    rw [countBelow_eq_card, List.countP_eq_length_filter,
      ← List.toFinset_card_of_nodup (List.nodup_range.filter _)]
    congr 1
    ext p
    simp [and_comm]
  have hkept : (List.range count).countP (fun p => decide ¬decide (p ∈ positions) = true) =
      (survivors count positions).length := by
    rw [List.countP_eq_length_filter, survivors]
    simp
  rw [hremoved, hkept, List.length_range] at hsplit
  omega

/-- In front of a survivor stand the survivors below it. -/
theorem idxOf_survivors (hp : p < count) (hkept : p ∉ positions) :
    (survivors count positions).idxOf p = p - countBelow p positions := by
  obtain ⟨k, rfl⟩ := Nat.exists_eq_add_of_lt hp
  have hsplit : survivors (p + k + 1) positions = survivors p positions ++
      p :: (((List.range k).map Nat.succ).map (p + ·)).filter (· ∉ positions) := by
    unfold survivors
    rw [Nat.add_assoc, List.range_add, List.range_succ_eq_map, List.map_cons, List.filter_append,
      List.filter_cons_of_pos (by simpa using hkept)]
    rfl
  have hbelow : p ∉ survivors p positions := by
    intro hmem
    exact Nat.lt_irrefl p (List.mem_range.mp (List.mem_of_mem_filter hmem))
  rw [hsplit, List.idxOf_append_of_notMem hbelow, List.idxOf_cons_self, Nat.add_zero, length_survivors]

theorem countBelow_eq_zero (h : ∀ p ∈ positions, bound ≤ p) : countBelow bound positions = 0 := by
  rw [countBelow_eq_card, Finset.filter_false_of_mem, Finset.card_empty]
  intro p hp
  exact Nat.not_lt_of_le (h p (List.mem_toFinset.mp hp))

theorem countBelow_eq_length (h : ∀ p ∈ positions, p < bound) (hnodup : positions.Nodup) :
    countBelow bound positions = positions.length := by
  rw [countBelow_eq_card, Finset.filter_true_of_mem, List.toFinset_card_of_nodup hnodup]
  intro p hp
  exact h p (List.mem_toFinset.mp hp)

namespace Expr
variable {make : Nat → Expr} {x : Point} {y : Nat → Int} {e : Expr} {added offset : Nat}

theorem projected_of_lt (hp : p < count) : projected make count positions p =
    if p ∈ positions then const 0 else make ((survivors count positions).idxOf p) := by
  unfold projected
  rw [if_neg (Nat.not_le_of_lt hp)]
  split
  · rfl
  · next hkept => rw [idxOf_survivors hp hkept]

theorem projected_congr (h : ∀ p < count, p ∈ positions ↔ p ∈ positions') :
    projected make count positions = projected make count positions' := by
  funext p
  by_cases hp : p < count
  · simp only [projected_of_lt hp, h p hp, survivors_congr h]
  · have hout : count ≤ p := Nat.le_of_not_lt hp
    simp only [projected, if_pos hout]

theorem value?_projected (hmake : ∀ p, (make p).value? x = some (y p)) (hp : p < count) :
    (projected make count positions p).value? x = some (spread count positions y p) := by
  rw [projected_of_lt hp, spread]
  split
  · rfl
  · exact hmake _

/-- The dimensions that were there before a shift have their old numbers once the added ones are gone. -/
theorem projected_shifted (hp : p < count) :
    projected .dim (count + added) (List.range' offset added) (if offset ≤ p then p + added else p) =
      dim p := by
  have hnodup : (List.range' offset added).Nodup := List.nodup_range'
  unfold projected
  split
  · next hge =>
    have hbelow : ∀ q ∈ List.range' offset added, q < p + added := by
      intro q hq
      rw [List.mem_range'_1] at hq
      omega
    rw [if_neg (by omega), if_neg fun hmem => Nat.lt_irrefl _ (hbelow _ hmem),
      countBelow_eq_length hbelow hnodup, List.length_range', Nat.add_sub_cancel]
  · next hlt =>
    have habove : ∀ q ∈ List.range' offset added, p < q := by
      intro q hq
      rw [List.mem_range'_1] at hq
      omega
    rw [if_neg (by omega), if_neg fun hmem => Nat.lt_irrefl _ (habove _ hmem),
      countBelow_eq_zero fun q hq => Nat.le_of_lt (habove q hq), Nat.sub_zero]

/-- Nothing is folded on the way, because variables take the place of variables. -/
theorem RedexFree.substitute_projected_makeRoom (h : e.RedexFree) {numSymbols : Nat}
    (hscope : e.InScope count numSymbols) (added offset : Nat) :
    (e.makeRoom added offset).substitute (projected .dim (count + added) (List.range' offset added))
      .symbol = e := by
  have hvars : (e.makeRoom added offset).VarsIn
      (fun p => projected .dim (count + added) (List.range' offset added) p =
        dim (if p < offset then p else p - added)) (fun p => symbol p = symbol (id p)) := by
    apply varsIn_makeRoom
    apply (inScope_iff_varsIn.mp hscope).mono
    · intro p hp
      rw [projected_shifted hp]
      congr 1
      split <;> split <;> omega
    · exact fun p _ => rfl
  rw [(h.makeRoom added offset).substitute_eq_rename hvars, rename_makeRoom]

end Expr

namespace IndexMap
variable {m : IndexMap}

/-- One by one, the results of the second map have the values that those of the first have where `back` leads. -/
def CarriesValues (back : Point → Point) (m m' : IndexMap) : Prop :=
  List.Forall₂ (fun e e' => ∀ x v, e.value? (back x) = some v → e'.value? x = some v) m.results m'.results

/-- It is enough that every variable of the domain is given an expression with the value that it has at `back x`. -/
theorem carriesValues_of_substitute (h : m.InScope) {m' : IndexMap} {back : Point → Point}
    {dims symbols : Nat → Expr} (hresults : m'.results = m.results.map (·.substitute dims symbols))
    (hdims : ∀ x, ∀ p < m.numDims, (dims p).value? x = some ((back x).dims p))
    (hsymbols : ∀ x, ∀ p < m.numSymbols, (symbols p).value? x = some ((back x).symbols p)) :
    m.CarriesValues back m' := by
  rw [CarriesValues, hresults, List.forall₂_map_right_iff, List.forall₂_same]
  intro e he x v hv
  have hvars := (inScope_iff.mp h e he).mono (hdims x) (hsymbols x)
  exact Expr.value?_substitute hvars hv

theorem carriesValues_projectDims (h : m.InScope) (positions : List Nat) :
    m.CarriesValues (fun x => { x with dims := spread m.numDims positions x.dims })
      (m.projectDims positions) :=
  carriesValues_of_substitute h rfl (fun _ _ => Expr.value?_projected fun _ => rfl) fun _ _ _ => rfl

theorem carriesValues_projectSymbols (h : m.InScope) (positions : List Nat) :
    m.CarriesValues (fun x => { x with symbols := spread m.numSymbols positions x.symbols })
      (m.projectSymbols positions) :=
  carriesValues_of_substitute h rfl (fun _ _ _ => rfl) fun _ _ => Expr.value?_projected fun _ => rfl

theorem projectDims_congr (h : ∀ p < m.numDims, p ∈ positions ↔ p ∈ positions') :
    m.projectDims positions = m.projectDims positions' := by
  simp only [projectDims, ← length_survivors, survivors_congr h, Expr.projected_congr h]

theorem projectSymbols_congr (h : ∀ p < m.numSymbols, p ∈ positions ↔ p ∈ positions') :
    m.projectSymbols positions = m.projectSymbols positions' := by
  simp only [projectSymbols, ← length_survivors, survivors_congr h, Expr.projected_congr h]

/-- A projected result has the value of the old one with 0 for the removed variables and, in order, the new
assignment for the survivors. Of the list it only matters which variables of the domain are in it. -/
theorem projections_carry_values (h : m.InScope) :
    (∀ positions, (m.projectDims positions).Over (survivors m.numDims positions).length m.numSymbols ∧
      m.CarriesValues (fun x => { x with dims := spread m.numDims positions x.dims })
        (m.projectDims positions)) ∧
    (∀ positions, (m.projectSymbols positions).Over m.numDims (survivors m.numSymbols positions).length ∧
      m.CarriesValues (fun x => { x with symbols := spread m.numSymbols positions x.symbols })
        (m.projectSymbols positions)) ∧
    (∀ positions positions', (∀ p < m.numDims, p ∈ positions ↔ p ∈ positions') →
      m.projectDims positions = m.projectDims positions') ∧
    ∀ positions positions', (∀ p < m.numSymbols, p ∈ positions ↔ p ∈ positions') →
      m.projectSymbols positions = m.projectSymbols positions' := by
  refine ⟨?dims, ?symbols, fun _ _ => projectDims_congr, fun _ _ => projectSymbols_congr⟩
  case dims =>
    intro positions
    have hsize := (length_survivors m.numDims positions).symm
    exact ⟨⟨hsize, rfl, inScope_projectDims h positions⟩, carriesValues_projectDims h positions⟩
  case symbols =>
    intro positions
    have hsize := (length_survivors m.numSymbols positions).symm
    exact ⟨⟨rfl, hsize, inScope_projectSymbols h positions⟩, carriesValues_projectSymbols h positions⟩

/-- Dimensions 0 and 2 go, so 1 and 3 become 0 and 1. The divisor folds, and the sum in front of it loses a zero. -/
theorem projections_carry_values_strided :
    let product : Expr := .binary .add (.binary .mul (.dim 3) (.symbol 1)) (.dim 1)
    let quotient : Expr := .binary .floorDiv (.binary .add (.dim 0) (.dim 3))
      (.binary .add (.dim 2) (.const 2))
    let m : IndexMap := ⟨4, 2, [product, quotient]⟩
    let product' : Expr := .binary .add (.binary .mul (.dim 1) (.symbol 1)) (.dim 0)
    let quotient' : Expr := .binary .floorDiv (.dim 1) (.const 2)
    let x : Point := ⟨([-5, 7].getD · 0), fun _ => 3⟩
    let before : Point := { x with dims := spread 4 [2, 0, 2, 9] x.dims }
    m.InScope ∧ m.projectDims [2, 0, 2, 9] = ⟨2, 2, [product', quotient']⟩ ∧
      (List.range 4).map before.dims = [0, -5, 0, 7] ∧
      (product.value? before = some 16 ∧ product'.value? x = some 16) ∧
      (quotient.value? before = some 3 ∧ quotient'.value? x = some 3) ∧
      m.projectDims [2, 0, 2, 9] = m.projectDims [0, 2] ∧
      m.projectSymbols [0, 0] = m.projectSymbols [0] ∧ (m.projectSymbols [0, 0]).Over 4 1 := by
  intro product quotient m product' quotient' x before
  have hscope : m.InScope := by decide
  have hm : m.projectDims [2, 0, 2, 9] = ⟨2, 2, [product', quotient']⟩ := by decide
  have hproduct : product.value? before = some 16 := by decide
  have hquotient : quotient.value? before = some 3 := by decide
  obtain ⟨hdims, hsymbols, hdimsCongr, hsymbolsCongr⟩ := projections_carry_values hscope
  have hvalues := (hdims [2, 0, 2, 9]).2
  rw [hm, CarriesValues, List.forall₂_cons, List.forall₂_cons] at hvalues
  obtain ⟨hproduct', hquotient', -⟩ := hvalues
  exact ⟨hscope, hm, by decide, ⟨hproduct, hproduct' x 16 hproduct⟩, ⟨hquotient, hquotient' x 3 hquotient⟩,
    hdimsCongr _ _ (by decide), hsymbolsCongr _ _ (by decide), (hsymbols [0, 0]).1⟩

theorem projectDims_makeRoom (hscope : m.InScope) (hfolded : m.IsFolded) {offset : Nat}
    (hoffset : offset ≤ m.numDims) (added : Nat) :
    (∀ d, offset ≤ d → d < offset + added → (m.makeRoom added offset).mentionsDim d = false) ∧
      (m.makeRoom added offset).projectDims (List.range' offset added) = m := by
  constructor
  · intro d hge hlt
    simp only [mentionsDim, makeRoom, List.any_map, List.any_eq_false, Function.comp_apply,
      Expr.mentionsDim_makeRoom _ hge hlt]
    exact fun _ _ => Bool.false_ne_true
  · have hin : ∀ d ∈ List.range' offset added, d < m.numDims + added := by
      intro d hd
      rw [List.mem_range'_1] at hd
      omega
    have hcount : countBelow (m.numDims + added) (List.range' offset added) = added := by
      rw [countBelow_eq_length hin List.nodup_range', List.length_range']
    have hresults : (m.results.map (·.makeRoom added offset)).map
        (·.substitute (projected .dim (m.numDims + added) (List.range' offset added)) .symbol) =
        m.results := by
      rw [List.map_map]
      refine (List.map_congr_left fun e he => ?_).trans (List.map_id m.results)
      have hfree := Expr.isFolded_iff_redexFree.mp (hfolded e he)
      exact hfree.substitute_projected_makeRoom (hscope e he) added offset
    simp only [projectDims, makeRoom, hcount, hresults, Nat.add_sub_cancel]

/-- A shift leaves the dimensions that it adds unused. To project them out restores a map whose results are
folded, as long as the shifted map has no more dimensions than a word can count. -/
theorem projectDims_shiftDims (hscope : m.InScope) (hfolded : m.IsFolded) {offset : Nat}
    (hoffset : offset ≤ m.numDims) {added : Nat} (hfits : m.numDims + added < 2 ^ 64) :
    (∀ d, offset ≤ d → d < offset + added → (m.shiftDims added offset).mentionsDim d = false) ∧
      (m.shiftDims added offset).projectDims (List.range' offset added) = m := by
  rw [shiftDims_eq_makeRoom hscope hfits]
  exact projectDims_makeRoom hscope hfolded hoffset added

theorem projectDims_shiftDims_strided :
    let m : IndexMap := ⟨2, 1, [.binary .floorDiv (.binary .add (.binary .mul (.dim 0) (.const 2)) (.dim 1))
      (.symbol 0), .binary .add (.dim 1) (.const 3)]⟩
    let shifted : IndexMap := ⟨5, 1, [.binary .floorDiv
      (.binary .add (.binary .mul (.dim 0) (.const 2)) (.dim 4)) (.symbol 0),
      .binary .add (.dim 4) (.const 3)]⟩
    m.InScope ∧ m.IsFolded ∧ 1 ≤ m.numDims ∧ m.numDims + 3 < 2 ^ 64 ∧ m.shiftDims 3 1 = shifted ∧
      (∀ d, 1 ≤ d → d < 4 → shifted.mentionsDim d = false) ∧ shifted.projectDims [1, 2, 3] = m := by
  intro m shifted
  have hscope : m.InScope := by decide
  have hfolded : m.IsFolded := by decide
  have hoffset : 1 ≤ m.numDims := by decide
  have hshifted : m.shiftDims 3 1 = shifted := by decide
  have hfits : m.numDims + 3 < 2 ^ 64 := by decide
  obtain ⟨hunused, hrestored⟩ := projectDims_shiftDims hscope hfolded hoffset hfits
  rw [hshifted] at hunused hrestored
  exact ⟨hscope, hfolded, hoffset, hfits, hshifted, hunused, hrestored⟩

/-- One dimension more than the largest word is none, and there is nothing to project out of that. -/
theorem projectDims_shiftDims_loses_dims :
    let m : IndexMap := ⟨0xffffffffffffffff, 0, [.dim 0]⟩
    let shifted : IndexMap := ⟨0, 0, [.dim 1]⟩
    m.InScope ∧ m.IsFolded ∧ 0 ≤ m.numDims ∧ m.shiftDims 1 0 = shifted ∧
      shifted.projectDims [0] = shifted ∧ (m.shiftDims 1 0).projectDims (List.range' 0 1) ≠ m := by
  decide

end IndexMap
end AffineSearch
