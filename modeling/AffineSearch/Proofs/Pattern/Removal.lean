import AffineSearch.Proofs.Pattern.Folded
import AffineSearch.Proofs.Pattern.Merge

/-! Dimensions that are used by themselves only. Such a dimension takes at most one result of a map with it
when it goes, and the other results are renumbered. A merge does this to its second dimension. -/
namespace AffineSearch

namespace IndexMap
variable {m : IndexMap} {d d1 d2 : Nat}

/-- Every result is folded, and there are some but none is 0. -/
structure IsReduced (m : IndexMap) : Prop where
  isFolded : m.IsFolded
  results_ne_nil : m.results ≠ []
  zero_notMem : .const 0 ∉ m.results

instance (m : IndexMap) : Decidable m.IsReduced :=
  decidable_of_iff (m.IsFolded ∧ m.results ≠ [] ∧ .const 0 ∉ m.results)
    ⟨fun ⟨hfolded, hne, hzero⟩ => ⟨hfolded, hne, hzero⟩, fun ⟨hfolded, hne, hzero⟩ => ⟨hfolded, hne, hzero⟩⟩

/-- The dimension is one result by itself and occurs nowhere else, or it does not occur at all. -/
def UsesAlone (d : Nat) (m : IndexMap) : Prop :=
  m.mentionsDim d = false ∨
    ∃ front back, m.results = front ++ .dim d :: back ∧ ∀ e ∈ front ++ back, e.mentionsDim d = false

/-- Without the dimension and the result that is nothing but this dimension. -/
def withoutDim (d : Nat) (m : IndexMap) : IndexMap where
  numDims := m.numDims - 1
  numSymbols := m.numSymbols
  results := (m.results.erase (.dim d)).map (·.lowerDims d)

theorem mentionsDim_eq_false_iff : m.mentionsDim d = false ↔ ∀ e ∈ m.results, e.mentionsDim d = false := by
  simp [mentionsDim]

theorem erase_dim_eq {front back : List Expr} (h : ∀ e ∈ front ++ back, e.mentionsDim d = false) :
    (front ++ .dim d :: back).erase (.dim d) = front ++ back := by
  have hfront : .dim d ∉ front := dim_notMem_of_forall fun e he => h e (List.mem_append_left back he)
  rw [List.erase_append_right _ hfront, List.erase_cons_head]

/-- To hold a dimension at 0 takes no results away that do not mention it and are not 0 themselves. -/
theorem filter_substitute_of_unused {es : List Expr} (hfree : ∀ e ∈ es, e.RedexFree)
    (hzero : .const 0 ∉ es) (hunused : ∀ e ∈ es, e.mentionsDim d = false) :
    (es.map (·.substitute (Expr.held .dim d 0) .symbol)).filter (· ≠ .const 0) =
      es.map (·.lowerDims d) := by
  have hlower : es.map (·.substitute (Expr.held .dim d 0) .symbol) = es.map (·.lowerDims d) :=
    List.map_congr_left fun e he => (hfree e he).substitute_held_dim (hunused e he)
  rw [hlower, List.filter_eq_self]
  intro e' he'
  obtain ⟨e, he, rfl⟩ := List.mem_map.mp he'
  have hne : e ≠ .const 0 := fun h => hzero (h ▸ he)
  exact decide_eq_true (fun h => hne (Expr.rename_eq_const_iff.mp h))

theorem IsReduced.filter_substitute_held_dim (hm : m.IsReduced) (huse : m.UsesAlone d) :
    (m.results.map (·.substitute (Expr.held .dim d 0) .symbol)).filter (· ≠ .const 0) =
      (m.results.erase (.dim d)).map (·.lowerDims d) := by
  have hfree : ∀ e ∈ m.results, e.RedexFree := fun e he => Expr.isFolded_iff_redexFree.mp (hm.isFolded e he)
  have hzero : .const 0 ∉ m.results := hm.zero_notMem
  rcases huse with hunused | ⟨front, back, hsplit, hrest⟩
  · rw [mentionsDim_eq_false_iff] at hunused
    rw [List.erase_of_not_mem (dim_notMem_of_forall hunused)]
    exact filter_substitute_of_unused hfree hzero hunused
  · simp only [hsplit, List.forall_mem_append, List.forall_mem_cons] at hfree
    simp only [hsplit, List.mem_append, List.mem_cons, not_or] at hzero
    rw [hsplit, erase_dim_eq hrest]
    rw [List.forall_mem_append] at hrest
    -- The dimension itself reads 0, and all before and behind it stays.
    have hself : (Expr.dim d).substitute (Expr.held .dim d 0) .symbol = .const 0 :=
      Expr.held_self .dim d 0
    rw [List.map_append, List.map_cons, hself, List.filter_append, List.filter_cons_of_neg (by simp),
      filter_substitute_of_unused hfree.1 hzero.1 hrest.1,
      filter_substitute_of_unused hfree.2.2 hzero.2.2 hrest.2, List.map_append]

theorem eliminateDim?_eq_withoutDim (hscope : m.InScope) (hd : d < m.numDims) (hm : m.IsReduced)
    (huse : m.UsesAlone d) (hleft : m.results.erase (.dim d) ≠ []) :
    m.eliminateDim? d = some (m.withoutDim d) := by
  rw [eliminateDim?_eq_specialize? hscope hd, specialize?_eq_some_iff, hm.filter_substitute_held_dim huse]
  refine ⟨rfl, ?_⟩
  intro hnil
  exact hleft (List.map_eq_nil_iff.mp hnil)

theorem IsMergeLayout.usesAlone (h : m.IsMergeLayout d1 d2) (hne : d1 ≠ d2) : m.UsesAlone d2 := by
  rcases h with ⟨-, hunused⟩ | ⟨front, back, hsplit, hrest⟩
  · exact Or.inl hunused
  · refine Or.inr ⟨front ++ [.dim d1], back, by rw [hsplit, List.append_assoc]; rfl, ?_⟩
    have hfirst : (Expr.dim d1).mentionsDim d2 = false := by simp [Expr.mentionsDim, hne]
    rw [List.append_assoc, List.forall_mem_append]
    rw [List.forall_mem_append] at hrest
    refine ⟨fun e he => (hrest.1 e he).2, ?_⟩
    rw [List.singleton_append, List.forall_mem_cons]
    exact ⟨hfirst, fun e he => (hrest.2 e he).2⟩

theorem IsMergeLayout.erase_ne_nil (h : m.IsMergeLayout d1 d2) (hne : d1 ≠ d2) (hm : m.results ≠ []) :
    m.results.erase (.dim d2) ≠ [] := by
  rcases h with ⟨-, hunused⟩ | ⟨front, back, hsplit, -⟩
  · rw [List.erase_of_not_mem (dim_notMem_of_forall (mentionsDim_eq_false_iff.mp hunused))]
    exact hm
  · have hfirst : .dim d1 ∈ m.results := by simp [hsplit]
    have hdims : Expr.dim d1 ≠ .dim d2 := fun h => hne (Expr.dim.inj h)
    exact List.ne_nil_of_mem ((List.mem_erase_of_ne hdims).mpr hfirst)

end IndexMap

namespace Pattern
variable {p : Pattern} {d d1 d2 : Nat}

def withoutDim (d : Nat) (p : Pattern) : Pattern := ⟨p.maps.map (·.withoutDim d), p.kinds.eraseIdx d⟩

/-- A merge takes the second of the two neighbouring results away and renumbers the dimensions above it.
Either of the two dimensions may have the lower number. -/
theorem mergeDims?_eq_withoutDim (hp : p.WellFormed) (hreduced : ∀ m ∈ p.maps, m.IsReduced) (hne : d1 ≠ d2)
    (h1 : d1 < p.numDims) (h2 : d2 < p.numDims) (hkinds : p.kinds[d1]? = p.kinds[d2]?)
    (hlayout : ∀ m ∈ p.maps, m.IsMergeLayout d1 d2) : p.mergeDims? d1 d2 = some (p.withoutDim d2) := by
  have hcheck : p.maps.all (·.isMergeable d1 d2) = true :=
    List.all_eq_true.mpr fun m hm => (hlayout m hm).isMergeable hne
  rw [mergeDims?_eq_some_iff, unroll?_eq_some_iff]
  refine ⟨⟨hne, h1, hkinds, hcheck⟩, h2, ?_, rfl⟩
  rw [withoutDim, List.map_map]
  apply List.map_congr_left
  intro m hm
  have hover := hp.over hm
  have hd : d2 < m.numDims := hover.numDims_eq ▸ h2
  exact IndexMap.eliminateDim?_eq_withoutDim hover.inScope hd (hreduced m hm)
    ((hlayout m hm).usesAlone hne) ((hlayout m hm).erase_ne_nil hne (hreduced m hm).results_ne_nil)

/-- Dimension 1 goes, so 2 and 3 are renumbered, also inside a sum and a product. -/
theorem mergeDims?_eq_withoutDim_reversed :
    let shifted : Expr := .binary .add (.dim 3) (.symbol 0)
    let p : Pattern := ⟨[⟨4, 1, [.dim 2, .dim 1, shifted]⟩, ⟨4, 1, [.binary .mul (.dim 3) (.const 2), .dim 0]⟩],
      [.reduction, .parallel, .parallel, .parallel]⟩
    let q : Pattern := ⟨[⟨3, 1, [.dim 1, .binary .add (.dim 2) (.symbol 0)]⟩,
      ⟨3, 1, [.binary .mul (.dim 2) (.const 2), .dim 0]⟩], [.reduction, .parallel, .parallel]⟩
    p.WellFormed ∧ (∀ m ∈ p.maps, m.IsReduced) ∧ p.kinds[2]? = p.kinds[1]? ∧
      (∀ m ∈ p.maps, m.IsMergeLayout 2 1) ∧ p.withoutDim 1 = q ∧ p.mergeDims? 2 1 = some q := by
  intro shifted p q
  have hp : p.WellFormed := by decide
  have hreduced : ∀ m ∈ p.maps, m.IsReduced := by decide
  have hlayout : ∀ m ∈ p.maps, m.IsMergeLayout 2 1 := by
    simp only [p, List.forall_mem_cons]
    exact ⟨Or.inr ⟨[], [shifted], rfl, by decide⟩, Or.inl (by decide), by simp⟩
  have hq : p.withoutDim 1 = q := by decide
  refine ⟨hp, hreduced, by decide, hlayout, hq, ?_⟩
  rw [← hq]
  exact mergeDims?_eq_withoutDim hp hreduced (by decide) (by decide) (by decide) (by decide) hlayout

end Pattern
end AffineSearch
