import AffineSearch.Proofs.Tree.Paths
import AffineSearch.Proofs.Tree.Size
import AffineSearch.Search.Explore

/-! The search one candidate at a time, and the induction over all of it. -/
namespace AffineSearch

/-- The node of a step that did not reach the goal. It is kept only for what lies below it. -/
def Node.kept (step : Step) : List Node → List Node
  | [] => []
  | below => [⟨some step, false, false, below⟩]

theorem Node.pathsIn_kept (step : Step) (below : List Node) :
    pathsIn (kept step below) = (pathsIn below).map (step :: ·) := by
  cases below with
  | nil => rfl
  | cons n below => simp [kept, pathsIn, paths]

theorem Node.numNodesIn_kept (step : Step) (below : List Node) :
    numNodesIn (kept step below) = numNodesIn below + if below.isEmpty then 0 else 1 := by
  cases below with
  | nil => rfl
  | cons n below => exact Nat.add_comm 1 (numNodesIn (n :: below))

theorem Node.levelsIn_kept_le (step : Step) (below : List Node) :
    levelsIn (kept step below) ≤ levelsIn below + 1 := by
  cases below with
  | nil => exact Nat.zero_le _
  | cons n below => simp [kept, levelsIn, height]

namespace Search

/-- Whether no further candidate is taken up. -/
def isDone (s : Search) (t : Tally) : Bool := s.hasEnough t || (s.spentBudget? t).isSome

/-- Leaves the candidates that are left. A spent budget is reported unless a match is enough. -/
def halt (s : Search) (st : Progress) : Progress :=
  if s.hasEnough st.tally then st
  else match s.spentBudget? st.tally with
    | some maxNodes => st.exhaust maxNodes
    | none => st

/-- Gives a node up when nothing is found below it. -/
def settle : List Node × Progress → List Node × Progress
  | ([], st) => ([], st.giveUp)
  | found => found

section
variable {s : Search} {descend : Pattern → Progress → List Node × Progress} {p q : Pattern}
  {depth : Nat} {step : Step} {rest : List Step} {st : Progress}

theorem isDone_eq_false_iff {t : Tally} :
    s.isDone t = false ↔ s.hasEnough t = false ∧ s.spentBudget? t = none := by
  simp [isDone]

theorem tryEach_of_isDone (h : s.isDone st.tally = true) :
    s.tryEach descend p depth (step :: rest) st = ([], s.halt st) := by
  unfold tryEach halt
  cases he : s.hasEnough st.tally with
  | true => rfl
  | false =>
    cases hb : s.spentBudget? st.tally with
    | some maxNodes => rfl
    | none => simp [isDone, he, hb] at h

theorem tryEach_of_none (h : s.isDone st.tally = false) (hs : step.perform? p = none) :
    s.tryEach descend p depth (step :: rest) st =
      s.tryEach descend p depth rest (st.reject step depth) := by
  obtain ⟨he, hb⟩ := isDone_eq_false_iff.mp h
  simp [tryEach, he, hb, hs]

theorem tryEach_of_goal (h : s.isDone st.tally = false) (hs : step.perform? p = some s.goal) :
    s.tryEach descend p depth (step :: rest) st =
      (⟨some step, true, false, []⟩ ::
          (s.tryEach descend p depth rest (st.reach step (depth + 1))).1,
        (s.tryEach descend p depth rest (st.reach step (depth + 1))).2) := by
  obtain ⟨he, hb⟩ := isDone_eq_false_iff.mp h
  simp [tryEach, he, hb, hs]

theorem tryEach_of_ne_goal (h : s.isDone st.tally = false) (hs : step.perform? p = some q)
    (hq : q ≠ s.goal) :
    s.tryEach descend p depth (step :: rest) st =
      (Node.kept step (descend q st.advance).1 ++
          (s.tryEach descend p depth rest (descend q st.advance).2).1,
        (s.tryEach descend p depth rest (descend q st.advance).2).2) := by
  obtain ⟨he, hb⟩ := isDone_eq_false_iff.mp h
  simp only [tryEach, he, hb, hs, hq]
  rcases descend q st.advance with ⟨_ | ⟨n, below⟩, st'⟩ <;> simp [Node.kept]

@[simp] theorem settle_fst (r : List Node × Progress) : (settle r).1 = r.1 := by
  obtain ⟨_ | ⟨n, below⟩, st⟩ := r <;> rfl

theorem explore_succ {levels : Nat} :
    s.explore (levels + 1) depth p st =
      settle (s.tryEach (s.explore levels (depth + 1)) p depth (p.candidates s.goal.numDims) st) := by
  rw [explore]
  rcases s.tryEach (s.explore levels (depth + 1)) p depth (p.candidates s.goal.numDims) st with
    ⟨_ | ⟨n, below⟩, st'⟩ <;> rfl

end

/-- What holds where the search turns back, and is kept when a candidate is tried, holds of all
that it does: `Among` of the candidates left at a node, `Below` of the node. -/
theorem explore_induction {s : Search}
    (Among : (levels depth : Nat) → Pattern → List Step → Progress → List Node × Progress → Prop)
    (Below : (levels depth : Nat) → Pattern → Progress → List Node × Progress → Prop)
    (limit : ∀ depth p st, Below 0 depth p st ([], (st.note (.depthLimit depth)).giveUp))
    (settled : ∀ levels depth p st r, Among levels depth p (p.candidates s.goal.numDims) st r →
      Below (levels + 1) depth p st (settle r))
    (nil : ∀ levels depth p st, Among levels depth p [] st ([], st))
    (halted : ∀ levels depth p step rest st, s.isDone st.tally = true →
      Among levels depth p (step :: rest) st ([], s.halt st))
    (rejected : ∀ levels depth p step rest st r, s.isDone st.tally = false →
      step.perform? p = none → Among levels depth p rest (st.reject step depth) r →
      Among levels depth p (step :: rest) st r)
    (reached : ∀ levels depth p step rest st r, s.isDone st.tally = false →
      step.perform? p = some s.goal → Among levels depth p rest (st.reach step (depth + 1)) r →
      Among levels depth p (step :: rest) st (⟨some step, true, false, []⟩ :: r.1, r.2))
    (descended : ∀ levels depth p q step rest st b r, s.isDone st.tally = false →
      step.perform? p = some q → q ≠ s.goal → Below levels (depth + 1) q st.advance b →
      Among levels depth p rest b.2 r →
      Among levels depth p (step :: rest) st (Node.kept step b.1 ++ r.1, r.2))
    (levels depth : Nat) (p : Pattern) (st : Progress) :
    Below levels depth p st (s.explore levels depth p st) := by
  induction levels generalizing depth p st with
  | zero => exact limit depth p st
  | succ levels ih =>
    rw [explore_succ]
    apply settled levels depth p st
    generalize p.candidates s.goal.numDims = steps
    induction steps generalizing st with
    | nil => exact nil levels depth p st
    | cons step rest hrest =>
      cases h : s.isDone st.tally with
      | true =>
        rw [tryEach_of_isDone h]
        exact halted levels depth p step rest st h
      | false =>
        cases hs : step.perform? p with
        | none =>
          rw [tryEach_of_none h hs]
          exact rejected levels depth p step rest st _ h hs (hrest _)
        | some q =>
          by_cases hq : q = s.goal
          · subst hq
            rw [tryEach_of_goal h hs]
            exact reached levels depth p step rest st _ h hs (hrest _)
          · rw [tryEach_of_ne_goal h hs hq]
            exact descended levels depth p q step rest st _ _ h hs hq (ih (depth + 1) q st.advance)
              (hrest _)

/-- All that is done below a source other than the goal. -/
def descent (s : Search) (source : Pattern) : List Node × Progress :=
  s.explore s.limits.maxDepth 0 source
    ⟨{ created := 1 }, #[.started source s.goal s.limits.maxDepth]⟩

section
variable {s : Search} {source : Pattern}

theorem run_of_eq (h : source = s.goal) :
    s.run source = ⟨⟨none, true, false, []⟩, { created := 1, reached := 1 },
      #[.started source s.goal s.limits.maxDepth, .alreadyThere]⟩ := by
  simp [run, h, Node.root]

theorem run_of_ne (h : source ≠ s.goal) :
    s.run source =
      ⟨if (s.descent source).1.isEmpty then ⟨none, false, true, []⟩
        else ⟨none, false, false, (s.descent source).1⟩,
        (s.descent source).2.tally,
        (s.descent source).2.log.push (.finished (s.descent source).2.tally)⟩ := by
  simp only [run, h]
  rfl

theorem run_root_of_eq (h : source = s.goal) : (s.run source).root = ⟨none, true, false, []⟩ := by
  rw [run_of_eq h]

theorem run_root_of_ne (h : source ≠ s.goal) :
    (s.run source).root =
      if (s.descent source).1.isEmpty then ⟨none, false, true, []⟩
      else ⟨none, false, false, (s.descent source).1⟩ := by
  rw [run_of_ne h]

theorem run_root_label (s : Search) (source : Pattern) : (s.run source).root.label = none := by
  by_cases h : source = s.goal
  · rw [run_root_of_eq h]
  · rw [run_root_of_ne h]
    split <;> rfl

theorem run_paths_of_eq (h : source = s.goal) : (s.run source).root.paths = [[]] := by
  rw [run_root_of_eq h]
  rfl

theorem run_paths_of_ne (h : source ≠ s.goal) :
    (s.run source).root.paths = Node.pathsIn (s.descent source).1 := by
  rw [run_root_of_ne h]
  split
  · next hempty =>
    rw [List.isEmpty_iff.mp hempty]
    rfl
  · simp [Node.paths]

end

end Search
end AffineSearch
