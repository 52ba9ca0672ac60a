import AffineSearch.Proofs.Pattern.Invariant
import AffineSearch.Proofs.Search.Limited
import AffineSearch.Proofs.Search.Exact

/-! The domains of source and goal fix how many dimensions and symbols each path adds and removes. -/
namespace AffineSearch

namespace Pattern

/-- Dimensions and symbols may go. New dimensions stand around the old ones, parallel ones in front and
reductions behind. -/
structure Convertible (source goal : Pattern) : Prop where
  numOperands_eq : source.numOperands = goal.numOperands
  numSymbols_le : goal.numSymbols ≤ source.numSymbols
  kinds_sublist : goal.numDims ≤ source.numDims → goal.kinds.Sublist source.kinds
  exists_kinds_eq : source.numDims ≤ goal.numDims → ∃ a b, a + b = goal.numDims - source.numDims ∧
    goal.kinds = List.replicate a .parallel ++ source.kinds ++ List.replicate b .reduction

/-- The path removes and adds no more than source and goal differ by. -/
structure Balances (source goal : Pattern) (path : List Step) : Prop where
  removed : path.countP Step.removesDim = source.numDims - goal.numDims
  added : path.countP Step.addsDim = goal.numDims - source.numDims
  dropped : path.countP Step.removesSymbol + goal.numSymbols = source.numSymbols

end Pattern

namespace Step
variable {s : Step}

theorem onKinds_sublist (h : s.addsDim = false) (kinds : List Kind) : (s.onKinds kinds).Sublist kinds := by
  cases s with
  | unroll d => exact List.eraseIdx_sublist kinds d
  | mergeDims d1 d2 => exact List.eraseIdx_sublist kinds d2
  | expand kind mask => cases h
  | dropSymbol s => exact List.Sublist.refl kinds
  | permute i j mask => exact List.Sublist.refl kinds
  | decompose position => exact List.Sublist.refl kinds

theorem exists_onKinds_eq (h : s.removesDim = false) (kinds : List Kind) :
    ∃ a b, s.onKinds kinds = List.replicate a .parallel ++ kinds ++ List.replicate b .reduction := by
  have hsame : kinds = List.replicate 0 Kind.parallel ++ kinds ++ List.replicate 0 .reduction := by simp
  cases s with
  | unroll d => cases h
  | mergeDims d1 d2 => cases h
  | expand kind mask =>
    cases kind with
    | parallel => exact ⟨1, 0, by simp [onKinds]⟩
    | reduction => exact ⟨0, 1, by simp [onKinds]⟩
  | dropSymbol s => exact ⟨0, 0, hsame⟩
  | permute i j mask => exact ⟨0, 0, hsame⟩
  | decompose position => exact ⟨0, 0, hsame⟩

/-- No step changes the domain twice. -/
theorem countP_add_le_length (path : List Step) :
    path.countP removesDim + path.countP addsDim + path.countP removesSymbol ≤ path.length := by
  induction path with
  | nil => simp
  | cons s path ih =>
    have hone : (if s.removesDim then 1 else 0) + (if s.addsDim then 1 else 0) +
        (if s.removesSymbol then 1 else 0) ≤ 1 := by
      cases s <;> simp [removesDim, addsDim, removesSymbol]
    simp only [List.countP_cons, List.length_cons]
    omega

namespace Effect
variable {p q : Pattern}

/-- Candidates bring the number of dimensions nearer to that of the goal or leave it. -/
theorem numDims_cases (h : s.Effect p q) {goalDims : Nat} (hs : p.Proposes goalDims s) :
    (s.removesDim = true ∧ s.addsDim = false ∧ q.numDims + 1 = p.numDims ∧ goalDims ≤ q.numDims) ∨
      (s.removesDim = false ∧ s.addsDim = true ∧ q.numDims = p.numDims + 1 ∧ q.numDims ≤ goalDims) ∨
      (s.removesDim = false ∧ s.addsDim = false ∧ q.numDims = p.numDims) := by
  rw [h.numDims_eq]
  have hfewer : goalDims < p.numDims →
      p.numDims - 1 + 1 = p.numDims ∧ goalDims ≤ p.numDims - 1 := by omega
  cases s with
  | unroll d => exact Or.inl ⟨rfl, rfl, hfewer hs.1⟩
  | mergeDims d1 d2 => exact Or.inl ⟨rfl, rfl, hfewer hs.1⟩
  | expand kind mask => exact Or.inr (Or.inl ⟨rfl, rfl, rfl, hs.1⟩)
  | dropSymbol s => exact Or.inr (Or.inr ⟨rfl, rfl, rfl⟩)
  | permute i j mask => exact Or.inr (Or.inr ⟨rfl, rfl, rfl⟩)
  | decompose position => exact Or.inr (Or.inr ⟨rfl, rfl, rfl⟩)

theorem numSymbols_cases (h : s.Effect p q) (hp : p.WellFormed) :
    (s.removesSymbol = true ∧ q.numSymbols + 1 = p.numSymbols) ∨
      (s.removesSymbol = false ∧ q.numSymbols = p.numSymbols) := by
  have hown := h.removesOwn
  rw [h.numSymbols_eq hp]
  cases s with
  | dropSymbol s => exact Or.inl ⟨rfl, Nat.sub_add_cancel (Nat.zero_lt_of_lt hown)⟩
  | unroll d => exact Or.inr ⟨rfl, rfl⟩
  | mergeDims d1 d2 => exact Or.inr ⟨rfl, rfl⟩
  | permute i j mask => exact Or.inr ⟨rfl, rfl⟩
  | expand kind mask => exact Or.inr ⟨rfl, rfl⟩
  | decompose position => exact Or.inr ⟨rfl, rfl⟩

end Effect
end Step

namespace Pattern
variable {goal p q : Pattern} {step : Step} {path : List Step}

theorem Convertible.refl (p : Pattern) : p.Convertible p where
  numOperands_eq := rfl
  numSymbols_le := Nat.le_refl _
  kinds_sublist _ := List.Sublist.refl _
  exists_kinds_eq _ := ⟨0, 0, by simp, by simp⟩

theorem Balances.nil (p : Pattern) : p.Balances p [] where
  removed := (Nat.sub_self _).symm
  added := (Nat.sub_self _).symm
  dropped := Nat.zero_add _

theorem Convertible.before (hq : q.Convertible goal) (h : step.Effect p q) (hp : p.WellFormed)
    (hs : p.Proposes goal.numDims step) : p.Convertible goal where
  numOperands_eq := h.numOperands_eq.symm.trans hq.numOperands_eq
  numSymbols_le := by
    have hle := hq.numSymbols_le
    have hcases := h.numSymbols_cases hp
    omega
  kinds_sublist := by
    intro hle
    have hkeeps : step.addsDim = false := by
      rcases h.numDims_cases hs with ⟨-, ha, -⟩ | ⟨-, -, hd, hgoal⟩ | ⟨-, ha, -⟩
      · exact ha
      · omega
      · exact ha
    have hcases := h.numDims_cases hs
    have hsub := step.onKinds_sublist hkeeps p.kinds
    rw [← h.kinds_eq] at hsub
    exact (hq.kinds_sublist (by omega)).trans hsub
  exists_kinds_eq := by
    intro hle
    have hkeeps : step.removesDim = false := by
      rcases h.numDims_cases hs with ⟨-, -, hd, hgoal⟩ | ⟨hr, -⟩ | ⟨hr, -⟩
      · omega
      · exact hr
      · exact hr
    have hcases := h.numDims_cases hs
    obtain ⟨a, b, -, hgoal⟩ := hq.exists_kinds_eq (by omega)
    obtain ⟨c, d, hkinds⟩ := step.exists_onKinds_eq hkeeps p.kinds
    have heq : goal.kinds =
        List.replicate (a + c) .parallel ++ p.kinds ++ List.replicate (d + b) .reduction := by
      rw [hgoal, h.kinds_eq, hkinds, ← List.replicate_append_replicate,
        ← List.replicate_append_replicate]
      simp only [List.append_assoc]
    have hlen : goal.numDims = a + c + p.numDims + (d + b) := by
      unfold numDims
      rw [heq]
      simp only [List.length_append, List.length_replicate]
    exact ⟨a + c, d + b, by omega, heq⟩

theorem Balances.cons (hq : q.Balances goal path) (h : step.Effect p q) (hp : p.WellFormed)
    (hs : p.Proposes goal.numDims step) : p.Balances goal (step :: path) where
  removed := by
    have hrest := hq.removed
    rw [List.countP_cons, hrest]
    rcases h.numDims_cases hs with ⟨hr, -, hd⟩ | ⟨hr, -, hd⟩ | ⟨hr, -, hd⟩
    all_goals
      simp only [hr, reduceIte, Bool.false_eq_true]
      omega
  added := by
    have hrest := hq.added
    rw [List.countP_cons, hrest]
    rcases h.numDims_cases hs with ⟨-, ha, hd⟩ | ⟨-, ha, hd⟩ | ⟨-, ha, hd⟩
    all_goals
      simp only [ha, reduceIte, Bool.false_eq_true]
      omega
  dropped := by
    have hrest := hq.dropped
    rw [List.countP_cons]
    rcases h.numSymbols_cases hp with ⟨hr, hn⟩ | ⟨hr, hn⟩
    all_goals
      simp only [hr, reduceIte, Bool.false_eq_true]
      omega

theorem LeadsTo.convertible (h : LeadsTo goal p path) (hp : p.WellFormed) : p.Convertible goal := by
  induction h with
  | last hc hs =>
    exact (Convertible.refl goal).before (Step.effect_of_perform? hs) hp (mem_candidates.mp hc)
  | next hc hs _ _ ih =>
    have heffect := Step.effect_of_perform? hs
    exact (ih (heffect.wellFormed hp)).before heffect hp (mem_candidates.mp hc)

theorem LeadsTo.balances (h : LeadsTo goal p path) (hp : p.WellFormed) : p.Balances goal path := by
  induction h with
  | last hc hs => exact (Balances.nil goal).cons (Step.effect_of_perform? hs) hp (mem_candidates.mp hc)
  | next hc hs _ _ ih =>
    have heffect := Step.effect_of_perform? hs
    exact (ih (heffect.wellFormed hp)).cons heffect hp (mem_candidates.mp hc)

theorem Balances.le_length (h : p.Balances goal path) :
    ((p.numDims : Int) - goal.numDims).natAbs + (p.numSymbols - goal.numSymbols) ≤ path.length := by
  have hle := Step.countP_add_le_length path
  have hremoved := h.removed
  have hadded := h.added
  have hdropped := h.dropped
  omega

end Pattern

namespace Search
open Pattern

theorem mem_paths_cases {s : Search} {source : Pattern} {path : List Step}
    (h : path ∈ (s.run source).root.paths) :
    (source = s.goal ∧ path = []) ∨ (LeadsTo s.goal source path ∧ path.length ≤ s.limits.maxDepth) := by
  let unlimited : Search :=
    ⟨s.goal, { maxDepth := s.limits.maxDepth, maxNodes := none, firstMatch := false }⟩
  have htight : Tightens s unlimited := by
    refine ⟨rfl, rfl, ?_⟩
    intro t ht
    rw [isDone_eq_false_of_unlimited rfl rfl] at ht
    cases ht
  have hmem : path ∈ (unlimited.run source).root.paths := (initial_run_paths htight source).subset h
  by_cases hs : source = s.goal
  · rw [run_paths_of_eq (s := unlimited) hs, List.mem_singleton] at hmem
    exact Or.inl ⟨hs, hmem⟩
  · rw [run_paths_of_ne (s := unlimited) hs, descent_paths_of_unlimited rfl rfl, mem_waysTo] at hmem
    exact Or.inr hmem

/-- However it is bounded, a search finds nothing where the domains do not convert or the depth does not
pay for their difference. -/
theorem run_paths_balance (s : Search) {source : Pattern} (hsource : source.WellFormed) :
    (∀ path ∈ (s.run source).root.paths, source.Convertible s.goal ∧ source.Balances s.goal path) ∧
      (¬source.Convertible s.goal ∨
        s.limits.maxDepth < ((source.numDims : Int) - s.goal.numDims).natAbs +
          (source.numSymbols - s.goal.numSymbols) → (s.run source).root.reachesGoal = false) := by
  have hpaths : ∀ path ∈ (s.run source).root.paths, source.Convertible s.goal ∧
      source.Balances s.goal path ∧ path.length ≤ s.limits.maxDepth := by
    intro path hpath
    rcases mem_paths_cases hpath with ⟨heq, rfl⟩ | ⟨hleads, hlen⟩
    · rw [heq]
      exact ⟨.refl _, .nil _, Nat.zero_le _⟩
    · exact ⟨hleads.convertible hsource, hleads.balances hsource, hlen⟩
  constructor
  · intro path hpath
    obtain ⟨hconv, hbal, -⟩ := hpaths path hpath
    exact ⟨hconv, hbal⟩
  · intro h
    by_contra hreach
    rw [Bool.not_eq_false] at hreach
    obtain ⟨path, hpath⟩ := Node.reachesGoal_iff.mp hreach
    obtain ⟨hconv, hbal, hlen⟩ := hpaths path hpath
    rcases h with hnot | hdepth
    · exact hnot hconv
    · have hle := hbal.le_length
      omega

/-- A stride at 1 and a batch dimension in front cost two steps and a third splits the sum. -/
theorem run_paths_balance_convolution :
    let goal : Pattern := ⟨[⟨3, 0, [.dim 0, .dim 1, .dim 2]⟩, ⟨3, 0, [.dim 2]⟩, ⟨3, 0, [.dim 0, .dim 1]⟩],
      [.parallel, .parallel, .reduction]⟩
    let search (maxDepth : Nat) : Search := ⟨goal, { maxDepth, maxNodes := some 30 }⟩
    let path : List Step := [.dropSymbol 0, .expand .parallel ⟨[true, false, true]⟩, .decompose 1]
    Pattern.convolution.WellFormed ∧ path ∈ ((search 3).run .convolution).root.paths ∧
      Pattern.convolution.Convertible goal ∧ Pattern.convolution.Balances goal path ∧
      ((search 1).run .convolution).root.reachesGoal = false := by
  intro goal search path
  have hsource : Pattern.convolution.WellFormed := by decide
  have hpath : path ∈ ((search 3).run .convolution).root.paths := by decide +kernel
  obtain ⟨hconv, hbal⟩ := (run_paths_balance (search 3) hsource).1 path hpath
  have hfails := (run_paths_balance (search 1) hsource).2 (Or.inr (by decide))
  exact ⟨hsource, hpath, hconv, hbal, hfails⟩

end Search
end AffineSearch
