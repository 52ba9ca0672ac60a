import AffineSearch.Proofs.Pattern.Operators
import Mathlib.Data.List.Enum

/-! Exchanging two results of the selected operands. Twice the same exchange changes nothing, and exchanges of
different operands do not meet. -/
namespace AffineSearch

namespace IndexMap
variable {m m' : IndexMap} {i j : Nat}

theorem swapResults_toOption_eq_some_iff : (m.swapResults i j).toOption = some m' ↔
    ∃ a b, m.results[i]? = some a ∧ m.results[j]? = some b ∧
      m' = { m with results := (m.results.set i b).set j a } := by
  unfold swapResults
  cases hi : m.results[i]? with
  | none => simp [Except.toOption]
  | some a =>
    cases hj : m.results[j]? with
    | none => simp [Except.toOption]
    | some b => simp [Except.toOption, eq_comm]

theorem swapResults_comm (m : IndexMap) (i j : Nat) :
    (m.swapResults i j).toOption = (m.swapResults j i).toOption := by
  ext m'
  rw [swapResults_toOption_eq_some_iff, swapResults_toOption_eq_some_iff]
  by_cases hij : i = j
  · rw [hij]
  · constructor
    · intro h
      obtain ⟨a, b, ha, hb, hm⟩ := h
      exact ⟨b, a, hb, ha, by rw [hm, List.set_comm _ _ hij]⟩
    · intro h
      obtain ⟨a, b, ha, hb, hm⟩ := h
      exact ⟨b, a, hb, ha, by rw [hm, List.set_comm _ _ (Ne.symm hij)]⟩

theorem eq_of_swapResults_self (h : (m.swapResults i i).toOption = some m') : m' = m := by
  obtain ⟨a, b, ha, -, rfl⟩ := swapResults_toOption_eq_some_iff.mp h
  obtain ⟨hi, hget⟩ := List.getElem?_eq_some_iff.mp ha
  rw [List.set_set, ← hget, List.set_getElem_self]

theorem lt_numResults_of_swapResults (h : (m.swapResults i j).toOption = some m') :
    i < m.numResults ∧ j < m.numResults := by
  obtain ⟨a, b, ha, hb, -⟩ := swapResults_toOption_eq_some_iff.mp h
  exact ⟨(List.getElem?_eq_some_iff.mp ha).1, (List.getElem?_eq_some_iff.mp hb).1⟩

/-- Each of the two stands where the other was, so the same exchange takes both back. -/
theorem swapResults_symm (h : (m.swapResults i j).toOption = some m') :
    (m'.swapResults i j).toOption = some m := by
  obtain ⟨hi, hj⟩ := lt_numResults_of_swapResults h
  obtain ⟨a, b, ha, hb, rfl⟩ := swapResults_toOption_eq_some_iff.mp h
  have hj' : j < (m.results.set i b).length := by rwa [List.length_set]
  have hright : ((m.results.set i b).set j a)[j]? = some a := List.getElem?_set_self hj'
  have hleft : ((m.results.set i b).set j a)[i]? = some b := by
    by_cases hij : j = i
    · subst hij
      rw [hright, ← ha, hb]
    · rw [List.getElem?_set_ne hij, List.getElem?_set_self hi]
  -- Results `i` and `j` are `a` and `b` again, also where the two positions are one.
  have hback : (((m.results.set i b).set j a).set i a).set j b = m.results := by
    apply List.ext_getElem?
    intro k
    grind
  exact swapResults_toOption_eq_some_iff.mpr ⟨b, a, hleft, hright, by rw [hback]⟩

theorem exists_swapResults_iff :
    (∃ m', (m.swapResults i j).toOption = some m') ↔ i < m.numResults ∧ j < m.numResults := by
  constructor
  · intro h
    obtain ⟨m', hm⟩ := h
    exact lt_numResults_of_swapResults hm
  · intro h
    have hi := List.getElem?_eq_getElem h.1
    have hj := List.getElem?_eq_getElem h.2
    exact ⟨_, swapResults_toOption_eq_some_iff.mpr ⟨_, _, hi, hj, rfl⟩⟩

/-- With results `i` and `j` exchanged, if the operand is selected and has both. -/
def swapped (i j : Nat) (isSelected : Bool) (m : IndexMap) : IndexMap :=
  if isSelected then (m.swapResults i j).toOption.getD m else m

theorem swapResults_eq_some_iff_swapped {isSelected : Bool} :
    (if isSelected then (m.swapResults i j).toOption else some m) = some m' ↔
      (isSelected = true → i < m.numResults ∧ j < m.numResults) ∧ m' = m.swapped i j isSelected := by
  cases isSelected with
  | false => simp [swapped, eq_comm]
  | true =>
    rw [← exists_swapResults_iff]
    cases h : (m.swapResults i j).toOption <;> simp [swapped, h, eq_comm]

theorem swapped_cases (m : IndexMap) (i j : Nat) (isSelected : Bool) :
    (isSelected = true ∧ (m.swapResults i j).toOption = some (m.swapped i j isSelected)) ∨
      m.swapped i j isSelected = m := by
  cases isSelected with
  | false => exact Or.inr rfl
  | true =>
    unfold swapped
    cases h : (m.swapResults i j).toOption with
    | none => exact Or.inr rfl
    | some m' => exact Or.inl ⟨rfl, rfl⟩

theorem swapped_self (m : IndexMap) (i : Nat) (isSelected : Bool) : m.swapped i i isSelected = m := by
  rcases m.swapped_cases i i isSelected with h | h
  · exact eq_of_swapResults_self h.2
  · exact h

theorem swapped_swapped (m : IndexMap) (i j : Nat) (isSelected : Bool) :
    (m.swapped i j isSelected).swapped i j isSelected = m := by
  rcases m.swapped_cases i j isSelected with h | h
  · rw [swapped, if_pos h.1, swapResults_symm h.2, Option.getD_some]
  · rw [h, h]

theorem numResults_swapped (m : IndexMap) (i j : Nat) (isSelected : Bool) :
    (m.swapped i j isSelected).numResults = m.numResults := by
  rcases m.swapped_cases i j isSelected with h | h
  · obtain ⟨a, b, -, -, hm⟩ := swapResults_toOption_eq_some_iff.mp h.2
    rw [hm]
    simp [numResults]
  · rw [h]

/-- At most one of the two exchanges takes place. -/
theorem swapped_comm_of_disjoint (m : IndexMap) (i j i' j' : Nat) {isSelected isSelected' : Bool}
    (h : ¬(isSelected = true ∧ isSelected' = true)) :
    (m.swapped i j isSelected).swapped i' j' isSelected' =
      (m.swapped i' j' isSelected').swapped i j isSelected := by
  cases isSelected with
  | false => rfl
  | true =>
    cases isSelected' with
    | false => rfl
    | true => exact absurd ⟨rfl, rfl⟩ h

end IndexMap

namespace Pattern
variable {p q : Pattern} {i j i' j' : Nat} {mask mask' : Mask}

/-- With results `i` and `j` exchanged in the selected operands that have both. -/
def permuted (i j : Nat) (mask : Mask) (p : Pattern) : Pattern :=
  ⟨p.maps.zipIdx.map fun (m, k) => m.swapped i j (mask.isSelected k), p.kinds⟩

/-- An operand is selected, and all that are selected have both results. -/
def CanPermute (i j : Nat) (mask : Mask) (p : Pattern) : Prop :=
  (∃ k < p.numOperands, mask.isSelected k = true) ∧
    ∀ (k : Nat) (m : IndexMap), p.maps[k]? = some m → mask.isSelected k = true →
      i < m.numResults ∧ j < m.numResults

theorem permute?_eq_some_iff_permuted :
    p.permute? i j mask = some q ↔ p.CanPermute i j mask ∧ q = p.permuted i j mask := by
  have hmaps : p.maps.zipIdx.map (fun (m, k) =>
      if mask.isSelected k then (m.swapResults i j).toOption else some m) = q.maps.map some ↔
      (∀ mk ∈ p.maps.zipIdx, mask.isSelected mk.2 = true → i < mk.1.numResults ∧ j < mk.1.numResults) ∧
        q.maps = (p.permuted i j mask).maps :=
    map_eq_map_some_iff fun _ _ => IndexMap.swapResults_eq_some_iff_swapped
  have hboth : (∀ mk ∈ p.maps.zipIdx, mask.isSelected mk.2 = true →
      i < mk.1.numResults ∧ j < mk.1.numResults) ↔
      ∀ (k : Nat) (m : IndexMap), p.maps[k]? = some m → mask.isSelected k = true →
        i < m.numResults ∧ j < m.numResults := by
    simp only [Prod.forall, List.mem_zipIdx_iff_getElem?]
    exact forall_comm
  obtain ⟨maps, kinds⟩ := q
  rw [permute?_eq_some_iff, Mask.selectsBelow_iff, hmaps, hboth, CanPermute, and_assoc]
  simp only [permuted, Pattern.mk.injEq]
  apply and_congr_right
  intro _
  rw [and_comm, and_assoc]

theorem getElem?_maps_permuted (p : Pattern) (i j : Nat) (mask : Mask) (k : Nat) :
    (p.permuted i j mask).maps[k]? = p.maps[k]?.map (·.swapped i j (mask.isSelected k)) := by
  simp [permuted, Function.comp_def]

theorem eq_of_getElem?_maps (hkinds : p.kinds = q.kinds) (hmaps : ∀ k : Nat, p.maps[k]? = q.maps[k]?) :
    p = q := by
  cases p
  cases q
  rw [Pattern.mk.injEq]
  exact ⟨List.ext_getElem? hmaps, hkinds⟩

theorem permuted_self (p : Pattern) (i : Nat) (mask : Mask) : p.permuted i i mask = p := by
  refine eq_of_getElem?_maps rfl fun k => ?_
  simp only [getElem?_maps_permuted, IndexMap.swapped_self, Option.map_id']

theorem permuted_permuted (p : Pattern) (i j : Nat) (mask : Mask) :
    (p.permuted i j mask).permuted i j mask = p := by
  refine eq_of_getElem?_maps rfl fun k => ?_
  simp only [getElem?_maps_permuted, Option.map_map, Function.comp_def, IndexMap.swapped_swapped,
    Option.map_id']

theorem permuted_comm_of_disjoint
    (h : ∀ k < p.numOperands, ¬(mask.isSelected k = true ∧ mask'.isSelected k = true)) :
    (p.permuted i j mask).permuted i' j' mask' = (p.permuted i' j' mask').permuted i j mask := by
  refine eq_of_getElem?_maps rfl fun k => ?_
  simp only [getElem?_maps_permuted, Option.map_map]
  cases hm : p.maps[k]? with
  | none => rfl
  | some m =>
    have hk : k < p.numOperands := (List.getElem?_eq_some_iff.mp hm).1
    exact congrArg some (m.swapped_comm_of_disjoint i j i' j' (h k hk))

/-- An exchange leaves every operand as many results, so it allows all the others that there were. -/
theorem canPermute_permuted_iff :
    (p.permuted i' j' mask').CanPermute i j mask ↔ p.CanPermute i j mask := by
  have hnum : (p.permuted i' j' mask').numOperands = p.numOperands := by simp [permuted, numOperands]
  unfold CanPermute
  simp [hnum, getElem?_maps_permuted, IndexMap.numResults_swapped]

theorem numResults_le_maxNumResults {m : IndexMap} (h : m ∈ p.maps) :
    m.numResults ≤ p.maxNumResults :=
  List.le_max?_getD_of_mem (List.mem_map_of_mem h)

theorem permute?_comm (p : Pattern) (i j : Nat) (mask : Mask) :
    p.permute? i j mask = p.permute? j i mask := by
  unfold permute?
  simp only [IndexMap.swapResults_comm _ i j]

theorem eq_of_permute?_self (h : p.permute? i i mask = some q) : q = p := by
  obtain ⟨-, hq⟩ := permute?_eq_some_iff_permuted.mp h
  rw [hq, permuted_self]

theorem lt_maxNumResults_of_permute? (h : p.permute? i j mask = some q) :
    i < p.maxNumResults ∧ j < p.maxNumResults := by
  obtain ⟨⟨⟨k, hk, hselected⟩, hboth⟩, -⟩ := permute?_eq_some_iff_permuted.mp h
  obtain ⟨hi, hj⟩ := hboth k _ (List.getElem?_eq_getElem hk) hselected
  have hle := numResults_le_maxNumResults (List.getElem_mem hk)
  omega

/-- Two results can be exchanged in the selected operands if one exists and all that exist have both. Another
exchange of the two restores the pattern, in whichever order they are named. Exchanges that share no existing
operand can be made in either order. -/
theorem permute?_involution (p : Pattern) (i j : Nat) (mask : Mask) :
    ((∃ q, p.permute? i j mask = some q) ↔ p.CanPermute i j mask) ∧
    (∀ q, p.permute? i j mask = some q →
      q.permute? i j mask = some p ∧ p.permute? j i mask = some q) ∧
    ∀ i' j' mask' q q', p.permute? i j mask = some q → p.permute? i' j' mask' = some q' →
      (∀ k < p.numOperands, ¬(mask.isSelected k = true ∧ mask'.isSelected k = true)) →
      ∃ r, q.permute? i' j' mask' = some r ∧ q'.permute? i j mask = some r := by
  refine ⟨?applies, ?twice, ?disjoint⟩
  case applies => simp only [permute?_eq_some_iff_permuted, exists_and_left, exists_eq, and_true]
  case twice =>
    intro q hq
    have hback : q.permute? i j mask = some p := by
      obtain ⟨hcan, rfl⟩ := permute?_eq_some_iff_permuted.mp hq
      rw [permute?_eq_some_iff_permuted, permuted_permuted]
      exact ⟨canPermute_permuted_iff.mpr hcan, rfl⟩
    rw [permute?_comm] at hq
    exact ⟨hback, hq⟩
  case disjoint =>
    intro i' j' mask' q q' hq hq' hdisjoint
    obtain ⟨hcan, rfl⟩ := permute?_eq_some_iff_permuted.mp hq
    obtain ⟨hcan', rfl⟩ := permute?_eq_some_iff_permuted.mp hq'
    refine ⟨(p.permuted i j mask).permuted i' j' mask', ?_, ?_⟩
    · exact permute?_eq_some_iff_permuted.mpr ⟨canPermute_permuted_iff.mpr hcan', rfl⟩
    · rw [permute?_eq_some_iff_permuted, permuted_comm_of_disjoint hdisjoint]
      exact ⟨canPermute_permuted_iff.mpr hcan, rfl⟩

/-- The second operand has one result only and must not be selected. Both masks have a flag beyond the last operand,
where they agree. -/
theorem permute?_involution_ragged :
    let p : Pattern := ⟨[⟨3, 0, [.dim 0, .dim 1, .dim 2]⟩, ⟨3, 0, [.dim 1]⟩, ⟨3, 0, [.dim 2, .dim 0]⟩],
      [.parallel, .parallel, .reduction]⟩
    let q := { p with maps := p.maps.set 0 ⟨3, 0, [.dim 2, .dim 1, .dim 0]⟩ }
    let q' := { p with maps := p.maps.set 2 ⟨3, 0, [.dim 0, .dim 2]⟩ }
    let mask : Mask := ⟨[true, false, false, true]⟩
    let mask' : Mask := ⟨[false, false, true, true]⟩
    ¬p.CanPermute 1 2 ⟨[true, true]⟩ ∧
      (p.permute? 0 2 mask = some q ∧ q.permute? 0 2 mask = some p ∧ p.permute? 2 0 mask = some q) ∧
      p.permute? 1 0 mask' = some q' ∧
      ∃ r, q.permute? 1 0 mask' = some r ∧ q'.permute? 0 2 mask = some r := by
  intro p q q' mask mask'
  have hfails := (permute?_involution p 1 2 ⟨[true, true]⟩).1
  obtain ⟨-, htwice, hdisjoint⟩ := permute?_involution p 0 2 mask
  have hq : p.permute? 0 2 mask = some q := by decide
  have hq' : p.permute? 1 0 mask' = some q' := by decide
  have hmasks : ∀ k < p.numOperands, ¬(mask.isSelected k = true ∧ mask'.isSelected k = true) := by decide
  refine ⟨?_, ⟨hq, htwice q hq⟩, hq', hdisjoint 1 0 mask' q q' hq hq' hmasks⟩
  have hnone : p.permute? 1 2 ⟨[true, true]⟩ = none := by decide
  rw [← hfails, hnone]
  simp

end Pattern
end AffineSearch
