import AffineSearch.Pattern.WellFormed
import AffineSearch.Proofs.Pattern.Operators

/-! Which dimensions merge. In a map that has the two as results by themselves only the first place of each
counts, and what comes behind is not looked at. -/
namespace AffineSearch

namespace IndexMap
variable {m : IndexMap} {e : Expr} {d d1 d2 i : Nat}

/-- Neither dimension occurs, or both are neighbouring results by themselves and occur nowhere else. -/
def IsMergeLayout (d1 d2 : Nat) (m : IndexMap) : Prop :=
  (m.mentionsDim d1 = false ∧ m.mentionsDim d2 = false) ∨
    ∃ front back, m.results = front ++ .dim d1 :: .dim d2 :: back ∧
      ∀ e ∈ front ++ back, e.mentionsDim d1 = false ∧ e.mentionsDim d2 = false

/-- Both dimensions are neighbouring results by themselves, and neither is one in front of them. -/
def AreFirstNeighbours (d1 d2 : Nat) (m : IndexMap) : Prop :=
  ∃ front back, m.results = front ++ .dim d1 :: .dim d2 :: back ∧ .dim d1 ∉ front ∧ .dim d2 ∉ front

theorem position?_eq_some_iff : m.position? e = some i ↔
    ∃ front back, m.results = front ++ e :: back ∧ e ∉ front ∧ front.length = i := by
  unfold position?
  constructor
  · intro h
    obtain ⟨hlt, heq, hfirst⟩ := List.findIdx?_eq_some_iff_getElem.mp h
    have hcons : m.results.drop i = e :: m.results.drop (i + 1) := by
      rw [List.drop_eq_getElem_cons hlt, of_decide_eq_true heq]
    have hlen : (m.results.take i).length = i := List.length_take_of_le (Nat.le_of_lt hlt)
    refine ⟨m.results.take i, m.results.drop (i + 1), ?_, ?_, hlen⟩
    · rw [← hcons, List.take_append_drop]
    · intro hmem
      obtain ⟨j, hj, hje⟩ := List.getElem_of_mem hmem
      rw [hlen] at hj
      rw [List.getElem_take] at hje
      exact hfirst j hj (decide_eq_true hje)
  · rintro ⟨front, back, hresults, hfront, rfl⟩
    have hnone : front.findIdx? (· = e) = none := by
      rw [List.findIdx?_eq_none_iff]
      intro x hx
      have hne : x ≠ e := fun heq => hfront (heq ▸ hx)
      exact decide_eq_false hne
    rw [hresults, List.findIdx?_append, hnone, List.findIdx?_cons]
    simp

theorem mentionsDim_of_position?_eq_some (h : m.position? (.dim d) = some i) : m.mentionsDim d = true := by
  obtain ⟨front, back, hresults, -, -⟩ := position?_eq_some_iff.mp h
  have hmem : .dim d ∈ m.results := by simp [hresults]
  exact List.any_eq_true.mpr ⟨.dim d, hmem, by simp [Expr.mentionsDim]⟩

theorem areFirstNeighbours_iff (hne : d1 ≠ d2) : m.AreFirstNeighbours d1 d2 ↔
    ∃ i, m.position? (.dim d1) = some i ∧ m.position? (.dim d2) = some (i + 1) := by
  constructor
  · rintro ⟨front, back, hresults, h1, h2⟩
    refine ⟨front.length, position?_eq_some_iff.mpr ⟨front, .dim d2 :: back, hresults, h1, rfl⟩, ?_⟩
    refine position?_eq_some_iff.mpr ⟨front ++ [.dim d1], back, ?_, ?_, by simp⟩
    · rw [hresults, List.append_assoc]
      rfl
    · simp [h2, Ne.symm hne]
  · rintro ⟨i, h1, h2⟩
    obtain ⟨front, rest, hresults, hfront, rfl⟩ := position?_eq_some_iff.mp h1
    obtain ⟨front', back, hresults', hfront', hlen⟩ := position?_eq_some_iff.mp h2
    -- Both splits are of one list, and the second has its cut one place behind that of the first.
    have hsplit : (front ++ [.dim d1]) ++ rest = front' ++ .dim d2 :: back := by
      rw [← hresults', hresults, List.append_assoc]
      rfl
    obtain ⟨rfl, rfl⟩ := List.append_inj hsplit (by simp [hlen])
    exact ⟨front, back, hresults, hfront, fun hmem => hfront' (List.mem_append_left _ hmem)⟩

theorem isMergeable_iff (hne : d1 ≠ d2) : m.isMergeable d1 d2 = true ↔
    (m.mentionsDim d1 = false ∧ m.mentionsDim d2 = false) ∨ m.AreFirstNeighbours d1 d2 := by
  rw [areFirstNeighbours_iff hne]
  unfold isMergeable
  cases h1 : m.position? (.dim d1) with
  | none =>
    cases h2 : m.position? (.dim d2) with
    | none => simp
    | some j => simp [mentionsDim_of_position?_eq_some h2]
  | some i =>
    have hused : m.mentionsDim d1 = true := mentionsDim_of_position?_eq_some h1
    cases h2 : m.position? (.dim d2) with
    | none => simp [hused]
    | some j => simp [hused, eq_comm (a := i + 1)]

theorem dim_notMem_of_forall {es : List Expr} (h : ∀ e ∈ es, e.mentionsDim d = false) : .dim d ∉ es := by
  intro hmem
  have hself : (Expr.dim d).mentionsDim d = true := by simp [Expr.mentionsDim]
  rw [h _ hmem] at hself
  cases hself

/-- Every such layout passes the check. More do, as the check stops at the first occurrences. -/
theorem IsMergeLayout.isMergeable (h : m.IsMergeLayout d1 d2) (hne : d1 ≠ d2) :
    m.isMergeable d1 d2 = true := by
  rw [isMergeable_iff hne]
  rcases h with hunused | ⟨front, back, hresults, hrest⟩
  · exact Or.inl hunused
  · rw [List.forall_mem_append] at hrest
    refine Or.inr ⟨front, back, hresults, ?_, ?_⟩
    · exact dim_notMem_of_forall fun e he => (hrest.1 e he).1
    · exact dim_notMem_of_forall fun e he => (hrest.1 e he).2

end IndexMap

namespace Pattern
variable {p q : Pattern} {d1 d2 : Nat}

theorem mergeDims?_eq_some_iff_layout : p.mergeDims? d1 d2 = some q ↔
    (d1 ≠ d2 ∧ d1 < p.numDims ∧ d2 < p.numDims ∧ p.kinds[d1]? = p.kinds[d2]? ∧
      ∀ m ∈ p.maps, (m.mentionsDim d1 = false ∧ m.mentionsDim d2 = false) ∨ m.AreFirstNeighbours d1 d2) ∧
    p.unroll? d2 = some q := by
  rw [mergeDims?_eq_some_iff, List.all_eq_true]
  constructor
  · rintro ⟨⟨hne, h1, hkinds, hmaps⟩, hq⟩
    have h2 : d2 < p.numDims := (unroll?_eq_some_iff.mp hq).1
    exact ⟨⟨hne, h1, h2, hkinds, fun m hm => (IndexMap.isMergeable_iff hne).mp (hmaps m hm)⟩, hq⟩
  · rintro ⟨⟨hne, h1, -, hkinds, hmaps⟩, hq⟩
    exact ⟨⟨hne, h1, hkinds, fun m hm => (IndexMap.isMergeable_iff hne).mpr (hmaps m hm)⟩, hq⟩

/-- A third result may use the dimensions in a sum, and the merge reads it without the second of them. -/
theorem mergeDims?_accepts_embedded_use :
    let m : IndexMap := ⟨2, 0, [.dim 0, .dim 1, .binary .add (.dim 0) (.dim 1)]⟩
    let p : Pattern := ⟨[m], [.parallel, .parallel]⟩
    let q : Pattern := ⟨[⟨1, 0, [.dim 0, .dim 0]⟩], [.parallel]⟩
    p.WellFormed ∧ p.mergeDims? 0 1 = some q ∧ ¬m.IsMergeLayout 0 1 := by
  intro m p q
  have hq : p.mergeDims? 0 1 = some q := by decide +kernel
  refine ⟨by decide, hq, ?_⟩
  rintro (⟨hunused, -⟩ | ⟨front, back, hresults, hrest⟩)
  · exact absurd hunused (by decide)
  · have hsum : Expr.binary .add (.dim 0) (.dim 1) ∈ front ++ back := by
      have hmem : Expr.binary .add (.dim 0) (.dim 1) ∈ m.results := by decide
      rw [hresults] at hmem
      simpa using hmem
    exact absurd (hrest _ hsum).1 (by decide)

end Pattern
end AffineSearch
