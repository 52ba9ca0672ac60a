import AffineSearch.Search.Candidates
import AffineSearch.Search.Event
import AffineSearch.Search.Limits
import AffineSearch.Step.Perform
import AffineSearch.Tree.Paths

/-! Depth-first search for the steps that lead from one pattern to another. Only nodes with a goal node
at or below them are kept. -/
namespace AffineSearch

structure Progress where
  tally : Tally
  log : Array Event

namespace Progress

def note (st : Progress) (e : Event) : Progress := { st with log := st.log.push e }

/-- A candidate applied and made a node. -/
def advance (st : Progress) : Progress :=
  { st with tally := { st.tally with
      tried := st.tally.tried + 1
      applied := st.tally.applied + 1
      created := st.tally.created + 1 } }

/-- A candidate led to the goal, at this depth. -/
def reach (st : Progress) (s : Step) (depth : Nat) : Progress :=
  let st := st.advance
  { tally := { st.tally with reached := st.tally.reached + 1 }
    log := st.log.push (.reachedGoal s depth) }

/-- A candidate did not apply. -/
def reject (st : Progress) (s : Step) (depth : Nat) : Progress :=
  { tally := { st.tally with tried := st.tally.tried + 1 }
    log := st.log.push (.notApplicable s depth) }

/-- A node has no way to the goal. -/
def giveUp (st : Progress) : Progress :=
  { st with tally := { st.tally with pruned := st.tally.pruned + 1 } }

/-- The budget is spent. Only the first time is reported. -/
def exhaust (st : Progress) (maxNodes : Nat) : Progress :=
  if st.tally.isSpent then st
  else
    { tally := { st.tally with isSpent := true }
      log := st.log.push (.budgetSpent maxNodes) }

end Progress

structure Search where
  goal : Pattern
  limits : Limits

structure Outcome where
  root : Node
  tally : Tally
  events : Array Event

namespace Search

/-- Whether a first match is all that is wanted, and there is one. -/
def hasEnough (s : Search) (t : Tally) : Bool := s.limits.firstMatch && 0 < t.reached

/-- The node budget, once it is spent. -/
def spentBudget? (s : Search) (t : Tally) : Option Nat := s.limits.maxNodes.filter (· ≤ t.created)

/-- Tries each step from `p`, which lies at `depth`. From patterns other than the goal `descend` finds
the nodes below. -/
def tryEach (s : Search) (descend : Pattern → Progress → List Node × Progress) (p : Pattern)
    (depth : Nat) : List Step → Progress → List Node × Progress
  | [], st => ([], st)
  | step :: rest, st =>
    if s.hasEnough st.tally then ([], st)
    else match s.spentBudget? st.tally with
      | some maxNodes => ([], st.exhaust maxNodes)
      | none =>
        match step.perform? p with
        | none => s.tryEach descend p depth rest (st.reject step depth)
        | some q =>
          if q = s.goal then
            let (more, st) := s.tryEach descend p depth rest (st.reach step (depth + 1))
            (⟨some step, true, false, []⟩ :: more, st)
          else
            match descend q st.advance with
            | ([], st) => s.tryEach descend p depth rest st
            | (below, st) =>
              let (more, st) := s.tryEach descend p depth rest st
              (⟨some step, false, false, below⟩ :: more, st)

/-- The nodes to keep below `p`, where `levels` more steps are allowed. Without any, `p` is given up. -/
def explore (s : Search) : (levels depth : Nat) → Pattern → Progress → List Node × Progress
  | 0, depth, _, st => ([], (st.note (.depthLimit depth)).giveUp)
  | levels + 1, depth, p, st =>
    match s.tryEach (s.explore levels (depth + 1)) p depth (p.candidates s.goal.numDims) st with
    | ([], st) => ([], st.giveUp)
    | found => found

def run (s : Search) (source : Pattern) : Outcome :=
  let start := Event.started source s.goal s.limits.maxDepth
  if source = s.goal then
    { root := { Node.root with isGoal := true }
      tally := { created := 1, reached := 1 }
      events := #[start, .alreadyThere] }
  else
    let (found, st) := s.explore s.limits.maxDepth 0 source ⟨{ created := 1 }, #[start]⟩
    { root := if found.isEmpty then Node.root.erase else { Node.root with children := found }
      tally := st.tally
      events := st.log.push (.finished st.tally) }

/-- Whether each path of the tree leads from `source` to the goal. -/
def confirms (s : Search) (source : Pattern) (tree : Node) : Bool :=
  tree.paths.all fun path => decide (source.replay? path = some s.goal)

end Search
end AffineSearch
