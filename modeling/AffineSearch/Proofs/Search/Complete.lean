import AffineSearch.Proofs.Pattern.Permutation
import AffineSearch.Proofs.Search.Exact
import Mathlib.Order.Bounds.Basic

/-! A search that only its depth bounds answers for all admissible steps, not only for those that it
tries. -/
namespace AffineSearch

/-- Numbers of dimensions restrict steps as they restrict the candidates. Parameters are free, except
that only sums of the first operand are split. -/
def Step.IsAdmissible (goalDims : Nat) (p : Pattern) : Step → Prop
  | unroll _ | mergeDims _ _ => goalDims < p.numDims
  | dropSymbol _ | permute _ _ _ => True
  | expand _ _ => p.numDims < goalDims
  | decompose position => ∃ m, p.maps.head? = some m ∧ m.hasSumAt position = true

namespace Pattern

/-- That many admissible steps lead from the pattern to the goal. The goal may be met on the way. -/
inductive ReachedIn (goal : Pattern) : Nat → Pattern → Prop
  | here : ReachedIn goal 0 goal
  | step {n p q} {t : Step} : t.IsAdmissible goal.numDims p → t.perform? p = some q →
      ReachedIn goal n q → ReachedIn goal (n + 1) p

section
variable {goal p q : Pattern} {goalDims n : Nat} {step : Step} {path : List Step}

theorem isAdmissible_of_mem_candidates (h : step ∈ p.candidates goalDims) :
    step.IsAdmissible goalDims p := by
  have hp := mem_candidates.mp h
  cases step with
  | unroll d => exact hp.1
  | dropSymbol s => trivial
  | mergeDims d1 d2 => exact hp.1
  | permute i j mask => trivial
  | expand kind mask => exact hp.1
  | decompose position => exact hp

/-- The masks enumerated for fewer than 64 operands stand for all others. -/
theorem exists_mask (hn : p.numOperands < 64) {mask : Mask}
    (hm : mask.selectsBelow p.numOperands = true) :
    ∃ mask' ∈ Mask.nonEmptySubsets p.numOperands, ∀ f,
      p.mapSelected? mask' f = p.mapSelected? mask f := by
  obtain ⟨mask', hmem, hsame⟩ := Mask.exists_mem_nonEmptySubsets hn hm
  exact ⟨mask', hmem, fun _ => mapSelected?_congr hsame⟩

theorem exists_permute_of_lt (hn : p.numOperands < 64) {i j : Nat} {mask : Mask} (hij : i < j)
    (h : p.permute? i j mask = some q) : ∃ c ∈ p.candidates goalDims, c.perform? p = some q := by
  obtain ⟨mask', hmem, hsame⟩ := exists_mask hn (permute?_eq_some_iff.mp h).1
  have hj := (lt_maxNumResults_of_permute? h).2
  refine ⟨.permute i j mask', mem_candidates.mpr ⟨⟨hij, hj⟩, hmem⟩, ?_⟩
  rw [← h]
  simp only [Step.perform?, permute?, hsame]

theorem exists_permute (hn : p.numOperands < 64) {i j : Nat} {mask : Mask}
    (h : p.permute? i j mask = some q) :
    q = p ∨ ∃ c ∈ p.candidates goalDims, c.perform? p = some q := by
  rcases Nat.lt_trichotomy i j with hij | hij | hij
  · exact Or.inr (exists_permute_of_lt hn hij h)
  · subst hij
    exact Or.inl (eq_of_permute?_self h)
  · rw [permute?_comm] at h
    exact Or.inr (exists_permute_of_lt hn hij h)

theorem exists_expand (hn : p.numOperands < 64) {kind : Kind} {mask : Mask}
    (hd : p.numDims < goalDims) (h : p.expand? kind mask = some q) :
    ∃ c ∈ p.candidates goalDims, c.perform? p = some q := by
  obtain ⟨mask', hmem, hsame⟩ := exists_mask hn (expand?_eq_some_iff.mp h).1
  refine ⟨.expand kind mask', mem_candidates.mpr ⟨hd, hmem⟩, ?_⟩
  rw [← h]
  simp only [Step.perform?, expand?, hsame]

/-- An admissible step changes nothing or does what a candidate does. -/
theorem exists_candidate (hn : p.numOperands < 64) (ha : step.IsAdmissible goalDims p)
    (h : step.perform? p = some q) :
    q = p ∨ ∃ c ∈ p.candidates goalDims, c.perform? p = some q := by
  have hunroll : ∀ d, goalDims < p.numDims → p.unroll? d = some q →
      ∃ c ∈ p.candidates goalDims, c.perform? p = some q := by
    intro d hd hu
    exact ⟨.unroll d, mem_candidates.mpr ⟨hd, (unroll?_eq_some_iff.mp hu).1⟩, hu⟩
  cases step with
  | unroll d => exact Or.inr (hunroll d ha h)
  | dropSymbol s =>
    exact Or.inr ⟨.dropSymbol s, mem_candidates.mpr (dropSymbol?_eq_some_iff.mp h).1, h⟩
  -- Merging removes the second dimension, in whichever order the two are named.
  | mergeDims d1 d2 => exact Or.inr (hunroll d2 ha (mergeDims?_eq_some_iff.mp h).2)
  | permute i j mask => exact exists_permute hn h
  | expand kind mask => exact Or.inr (exists_expand hn ha h)
  | decompose position => exact Or.inr ⟨.decompose position, mem_candidates.mpr ha, h⟩

theorem LeadsTo.reachedIn (h : LeadsTo goal p path) : goal.ReachedIn path.length p := by
  induction h with
  | last hc hs => exact .step (isAdmissible_of_mem_candidates hc) hs .here
  | next hc hs _ _ ih => exact .step (isAdmissible_of_mem_candidates hc) hs ih

/-- Steps that change nothing are left out, as are those behind the first goal. -/
theorem ReachedIn.exists_leadsTo (h : goal.ReachedIn n p) (hn : p.numOperands < 64) (hp : p ≠ goal) :
    ∃ path, LeadsTo goal p path ∧ path.length ≤ n := by
  induction h with
  | here => exact absurd rfl hp
  | @step n p q t ha hs _ ih =>
    rcases exists_candidate hn ha hs with heq | ⟨c, hc, hcs⟩
    · obtain ⟨path, hpath, hlen⟩ := heq ▸ ih (heq ▸ hn) (heq ▸ hp)
      exact ⟨path, heq ▸ hpath, by omega⟩
    · by_cases hq : q = goal
      · exact ⟨[c], .last hc (hq ▸ hcs), by simp⟩
      · have hnq : q.numOperands < 64 := by
          rw [Step.numOperands_of_perform? hs]
          exact hn
        obtain ⟨path, hpath, hlen⟩ := ih hnq hq
        refine ⟨c :: path, .next hc hcs hq hpath, ?_⟩
        rw [List.length_cons]
        omega

end
end Pattern

namespace Search
open Pattern

section
variable {s : Search} (hb : s.limits.maxNodes = none) (hf : s.limits.firstMatch = false)
  {source : Pattern} {path : List Step} {n : Nat}
include hb hf

theorem reachedIn_of_mem_paths (h : path ∈ (s.run source).root.paths) :
    s.goal.ReachedIn path.length source ∧ path.length ≤ s.limits.maxDepth := by
  by_cases hs : source = s.goal
  · rw [run_paths_of_eq hs, List.mem_singleton] at h
    rw [h, hs]
    exact ⟨.here, Nat.zero_le _⟩
  · rw [run_paths_of_ne hs, descent_paths_of_unlimited hb hf, mem_waysTo] at h
    exact ⟨h.1.reachedIn, h.2⟩

theorem exists_mem_paths_of_reachedIn (hn : source.numOperands < 64)
    (h : s.goal.ReachedIn n source) (hd : n ≤ s.limits.maxDepth) :
    ∃ path ∈ (s.run source).root.paths, path.length ≤ n := by
  by_cases hs : source = s.goal
  · rw [run_paths_of_eq hs]
    exact ⟨[], List.mem_singleton_self _, Nat.zero_le _⟩
  · obtain ⟨path, hpath, hlen⟩ := h.exists_leadsTo hn hs
    refine ⟨path, ?_, hlen⟩
    rw [run_paths_of_ne hs, descent_paths_of_unlimited hb hf, mem_waysTo]
    exact ⟨hpath, Nat.le_trans hlen hd⟩

end

/-- The goal is found exactly when at most `maxDepth` admissible steps reach it, and the shortest path
has the least possible number of them. -/
theorem run_complete (goal source : Pattern) (maxDepth : Nat) (hn : source.numOperands < 64) :
    let s : Search := ⟨goal, { maxDepth, maxNodes := none, firstMatch := false }⟩
    let root := (s.run source).root
    (root.reachesGoal = true ↔ ∃ n ≤ maxDepth, goal.ReachedIn n source) ∧
      (root.reachesGoal = true → ∃ path before after, root.shortestPath? = some path ∧
        IsLeast {n | goal.ReachedIn n source} path.length ∧
        root.paths = before ++ path :: after ∧ ∀ other ∈ before, path.length < other.length) := by
  intro s root
  have hsound : ∀ path ∈ root.paths,
      goal.ReachedIn path.length source ∧ path.length ≤ maxDepth := by
    intro path h
    exact reachedIn_of_mem_paths (s := s) rfl rfl h
  have hcomplete : ∀ n, goal.ReachedIn n source → n ≤ maxDepth →
      ∃ path ∈ root.paths, path.length ≤ n := by
    intro n h hd
    exact exists_mem_paths_of_reachedIn (s := s) rfl rfl hn h hd
  constructor
  · rw [Node.reachesGoal_iff]
    constructor
    · intro h
      obtain ⟨path, hpath⟩ := h
      exact ⟨path.length, (hsound path hpath).2, (hsound path hpath).1⟩
    · intro h
      obtain ⟨n, hd, hr⟩ := h
      obtain ⟨path, hpath, -⟩ := hcomplete n hr hd
      exact ⟨path, hpath⟩
  · intro hreach
    obtain ⟨path, before, after, hpath, hsplit, hbefore, hshortest⟩ :=
      Node.exists_shortestPath? hreach
    have hmem : path ∈ root.paths := by
      rw [hsplit]
      exact List.mem_append_right _ List.mem_cons_self
    obtain ⟨hreached, hdepth⟩ := hsound path hmem
    refine ⟨path, before, after, hpath, ⟨hreached, ?_⟩, hsplit, hbefore⟩
    intro n hr
    by_cases hd : n ≤ maxDepth
    · obtain ⟨other, hother, hle⟩ := hcomplete n hr hd
      exact Nat.le_trans (hshortest other hother) hle
    · omega

theorem run_complete_rotation :
    let source : Pattern := .transposed [0, 1, 2]
    let goal : Pattern := .transposed [2, 0, 1]
    let s : Search := ⟨goal, { maxDepth := 2, maxNodes := none, firstMatch := false }⟩
    source.numOperands < 64 ∧ (s.run source).root.shortestPath? =
        some [.permute 0 1 (.full 1), .permute 0 2 (.full 1)] ∧
      IsLeast {n | goal.ReachedIn n source} 2 := by
  intro source goal s
  have hn : source.numOperands < 64 := by decide
  have hreach : (s.run source).root.reachesGoal = true := by decide +kernel
  have hpath : (s.run source).root.shortestPath? =
      some [.permute 0 1 (.full 1), .permute 0 2 (.full 1)] := by decide +kernel
  obtain ⟨path, before, after, hsome, hleast, -⟩ := (run_complete goal source 2 hn).2 hreach
  have heq := Option.some.inj (hpath.symm.trans hsome)
  rw [← heq] at hleast
  exact ⟨hn, hpath, hleast⟩

end Search
end AffineSearch
