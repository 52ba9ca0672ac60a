import AffineSearch.Proofs.Search.Recorded

/-! A search that only its depth bounds finds every way to the goal once, in the order of the candidates. -/
namespace AffineSearch

namespace Pattern

/-- Each step is a candidate where it is performed, and the goal is met by the last step only. -/
inductive LeadsTo (goal : Pattern) : Pattern → List Step → Prop
  | last {p step} : step ∈ p.candidates goal.numDims → step.perform? p = some goal →
      LeadsTo goal p [step]
  | next {p q step rest} : step ∈ p.candidates goal.numDims → step.perform? p = some q → q ≠ goal →
      LeadsTo goal q rest → LeadsTo goal p (step :: rest)

/-- Where the steps stand among the candidates they are taken from. -/
def choices (goalDims : Nat) : Pattern → List Step → List Nat
  | _, [] => []
  | p, step :: rest => (p.candidates goalDims).idxOf step ::
      match step.perform? p with
      | some q => q.choices goalDims rest
      | none => []

/-- The ways that begin with `step`, where `ways` are those from the patterns behind it. -/
def waysBy (goal : Pattern) (ways : Pattern → List (List Step)) (p : Pattern) (step : Step) :
    List (List Step) :=
  match step.perform? p with
  | none => []
  | some q => if q = goal then [[step]] else (ways q).map (step :: ·)

def waysTo (goal : Pattern) : (levels : Nat) → Pattern → List (List Step)
  | 0, _ => []
  | levels + 1, p => (p.candidates goal.numDims).flatMap (waysBy goal (waysTo goal levels) p)

section
variable {goal p q : Pattern} {ways : Pattern → List (List Step)} {step : Step} {path rest : List Step}

theorem mem_waysBy : path ∈ waysBy goal ways p step ↔
    (step.perform? p = some goal ∧ path = [step]) ∨
      ∃ q rest, step.perform? p = some q ∧ q ≠ goal ∧ rest ∈ ways q ∧ path = step :: rest := by
  unfold waysBy
  cases hs : step.perform? p with
  | none => simp
  | some q =>
    by_cases hq : q = goal
    · simp [hq]
    · simp [hq, Ne.symm hq, eq_comm]

theorem mem_waysTo {levels : Nat} :
    path ∈ waysTo goal levels p ↔ LeadsTo goal p path ∧ path.length ≤ levels := by
  induction levels generalizing p path with
  | zero =>
    simp only [waysTo, List.not_mem_nil, Nat.le_zero, List.length_eq_zero_iff, false_iff, not_and]
    intro h hnil
    subst hnil
    cases h
  | succ levels ih =>
    simp only [waysTo, List.mem_flatMap, mem_waysBy, ih]
    constructor
    · intro h
      obtain ⟨step, hc, ⟨hs, rfl⟩ | ⟨q, rest, hs, hq, ⟨hr, hlen⟩, rfl⟩⟩ := h
      · exact ⟨.last hc hs, by simp⟩
      · exact ⟨.next hc hs hq hr, by simpa using hlen⟩
    · intro h
      obtain ⟨h, hlen⟩ := h
      cases h with
      | last hc hs => exact ⟨_, hc, Or.inl ⟨hs, rfl⟩⟩
      | next hc hs hq hr =>
        exact ⟨_, hc, Or.inr ⟨_, _, hs, hq, ⟨hr, by simpa using hlen⟩, rfl⟩⟩

theorem LeadsTo.length_pos (h : LeadsTo goal p path) : 1 ≤ path.length := by
  cases h <;> simp

theorem candidates_pairwise_idxOf (p : Pattern) (goalDims : Nat) :
    (p.candidates goalDims).Pairwise fun a b =>
      (p.candidates goalDims).idxOf a < (p.candidates goalDims).idxOf b := by
  rw [List.pairwise_iff_getElem]
  intro i j hi hj hij
  rw [(p.candidates_nodup goalDims).idxOf_getElem, (p.candidates_nodup goalDims).idxOf_getElem]
  exact hij

theorem exists_cons_of_mem_waysBy (h : path ∈ waysBy goal ways p step) :
    ∃ rest, path = step :: rest := by
  rcases mem_waysBy.mp h with ⟨-, rfl⟩ | ⟨q, rest, -, -, -, rfl⟩
  · exact ⟨[], rfl⟩
  · exact ⟨rest, rfl⟩

theorem waysTo_pairwise_choices (goal : Pattern) (levels : Nat) (p : Pattern) :
    ((waysTo goal levels p).map (p.choices goal.numDims)).Pairwise (List.Lex (· < ·)) := by
  induction levels generalizing p with
  | zero => exact List.Pairwise.nil
  | succ levels ih =>
    simp only [waysTo]
    rw [List.pairwise_map, List.pairwise_flatMap]
    constructor
    -- Behind one candidate the first choices are equal and the others decide.
    · intro step _
      unfold waysBy
      cases hs : step.perform? p with
      | none => exact List.Pairwise.nil
      | some q =>
        by_cases hq : q = goal
        · simp [hq]
        · have htail := List.pairwise_map.mp (ih q)
          simp only [hq, if_false, List.pairwise_map, choices, hs]
          exact htail.imp fun h => List.Lex.cons h
    · apply (candidates_pairwise_idxOf p goal.numDims).imp
      intro a b hab x hx y hy
      obtain ⟨xs, rfl⟩ := exists_cons_of_mem_waysBy hx
      obtain ⟨ys, rfl⟩ := exists_cons_of_mem_waysBy hy
      exact List.Lex.rel hab

end
end Pattern

namespace Search
open Pattern

theorem pathsIn_explore_of_not_isDone {s : Search} (hs : ∀ t, s.isDone t = false)
    (levels depth : Nat) (p : Pattern) (st : Progress) :
    Node.pathsIn (s.explore levels depth p st).1 = waysTo s.goal levels p := by
  refine explore_induction
    (fun levels _ p steps _ r =>
      Node.pathsIn r.1 = steps.flatMap (waysBy s.goal (waysTo s.goal levels) p))
    (fun levels _ p _ r => Node.pathsIn r.1 = waysTo s.goal levels p)
    ?limit ?settled ?nil ?halted ?rejected ?reached ?descended levels depth p st
  case limit => exact fun _ _ _ => rfl
  case settled =>
    intro levels depth p st r h
    rw [settle_fst, h]
    rfl
  case nil => exact fun _ _ _ _ => rfl
  case halted =>
    intro levels depth p step rest st h
    rw [hs] at h
    cases h
  case rejected =>
    intro levels depth p step rest st r _ hp h
    simp [h, waysBy, hp]
  case reached =>
    intro levels depth p step rest st r _ hp h
    simp [Node.pathsIn, Node.paths, h, waysBy, hp]
  case descended =>
    intro levels depth p q step rest st b r _ hp hq hb h
    rw [Node.pathsIn_append, Node.pathsIn_kept, hb, h]
    simp [waysBy, hp, hq]

theorem isDone_eq_false_of_unlimited {s : Search} (hn : s.limits.maxNodes = none)
    (hf : s.limits.firstMatch = false) (t : Tally) : s.isDone t = false := by
  simp [isDone, hasEnough, spentBudget?, hn, hf]

theorem descent_paths_of_unlimited {s : Search} (hn : s.limits.maxNodes = none)
    (hf : s.limits.firstMatch = false) (source : Pattern) :
    Node.pathsIn (s.descent source).1 = waysTo s.goal s.limits.maxDepth source :=
  pathsIn_explore_of_not_isDone (isDone_eq_false_of_unlimited hn hf) _ _ _ _

/-- The paths are the ways to the goal within the depth bound, sorted by their choices among the
candidates. -/
theorem run_paths_exact (goal source : Pattern) (maxDepth : Nat) :
    let s : Search := ⟨goal, { maxDepth, maxNodes := none, firstMatch := false }⟩
    let paths := (s.run source).root.paths
    if source = goal then paths = [[]]
    else
      (∀ path, path ∈ paths ↔ LeadsTo goal source path ∧ 1 ≤ path.length ∧ path.length ≤ maxDepth) ∧
        paths.Nodup ∧ (paths.map (source.choices goal.numDims)).Pairwise (List.Lex (· < ·)) := by
  intro s paths
  split
  · next h => exact run_paths_of_eq (s := s) h
  · next h =>
    have hpaths : paths = waysTo goal maxDepth source :=
      (run_paths_of_ne (s := s) h).trans (descent_paths_of_unlimited rfl rfl source)
    have hsorted := waysTo_pairwise_choices goal maxDepth source
    rw [hpaths]
    refine ⟨?_, ?_, hsorted⟩
    · intro path
      rw [mem_waysTo]
      exact ⟨fun ⟨h, hlen⟩ => ⟨h, h.length_pos, hlen⟩, fun ⟨h, _, hlen⟩ => ⟨h, hlen⟩⟩
    · apply (List.pairwise_map.mp hsorted).imp
      intro a b hlt heq
      rw [heq] at hlt
      exact List.lex_irrefl Nat.lt_irrefl _ hlt

example : (run ⟨.transposed [0], { maxDepth := 2 }⟩ (.transposed [1, 0])).root.paths =
    [[.unroll 0], [.unroll 1], [.permute 0 1 (.full 1), .unroll 0], [.permute 0 1 (.full 1), .unroll 1],
      [.permute 0 1 (.full 1), .mergeDims 0 1]] := by
  decide +kernel

end Search
end AffineSearch
