import AffineSearch.Step.Basic

/-! What a search counts and what it reports while it runs. -/
namespace AffineSearch

structure Tally where
  /-- Nodes made, with the root. -/
  created : Nat := 0
  /-- Candidates taken up. -/
  tried : Nat := 0
  /-- Candidates that applied. -/
  applied : Nat := 0
  /-- Nodes at the goal. -/
  reached : Nat := 0
  /-- Nodes given up. -/
  pruned : Nat := 0
  /-- Whether the node budget cut the search short. -/
  isSpent : Bool := false
  deriving DecidableEq

/-- Depths are those of the node from which a step was tried, and for the goal that of its own node. -/
inductive Event where
  | started (source goal : Pattern) (maxDepth : Nat)
  | alreadyThere
  | depthLimit (depth : Nat)
  | notApplicable (step : Step) (depth : Nat)
  | reachedGoal (step : Step) (depth : Nat)
  | budgetSpent (maxNodes : Nat)
  | finished (tally : Tally)
  deriving DecidableEq

def Tally.text (t : Tally) : String :=
  "nodes_created=" ++ toString t.created ++ " candidates_tried=" ++ toString t.tried ++
    " candidates_applied=" ++ toString t.applied ++ " terminal_leaves=" ++ toString t.reached ++
    " nodes_pruned=" ++ toString t.pruned ++ " budget_exhausted=" ++ (if t.isSpent then "true" else "false")

/-- One line of a report. -/
def Event.text : Event → String
  | started source goal maxDepth =>
    "SPAN solve_with_stats source=" ++ source.text ++ " target=" ++ goal.text ++
      " max_depth=" ++ toString maxDepth
  | alreadyThere => "DEBUG source already matches target"
  | depthLimit depth => "TRACE depth limit reached depth=" ++ toString depth
  | notApplicable step depth =>
    "TRACE candidate not applicable transform=" ++ step.text ++ " depth=" ++ toString depth
  | reachedGoal step depth =>
    "DEBUG reached target transform=" ++ step.text ++ " depth=" ++ toString depth
  | budgetSpent maxNodes => "DEBUG node budget exhausted max_nodes=" ++ toString maxNodes
  | finished tally => "DEBUG search finished " ++ tally.text

end AffineSearch
