import AffineSearch.Proofs.Search.Descent

/-! The search as it grows its tree. It gets the node of a pattern, attaches to it those of the candidates, and
erases it if none was attached. The tree that is left in the end has exactly the nodes to keep. -/
namespace AffineSearch

namespace Node

theorem append_children_nil (n : Node) : { n with children := n.children ++ [] } = n := by
  obtain ⟨label, isGoal, isErased, children⟩ := n
  rw [List.append_nil]

/-- With one more child, unless that child was given up. -/
def attach (parent child : Node) : Node := (parent.attach? child).getD parent

/-- With these nodes below it. Without any it is given up. -/
def filled (n : Node) (below : List Node) : Node :=
  if below.isEmpty then n.erase else { n with children := below }

theorem isErased_filled_ofStep (step : Step) (below : List Node) :
    ((ofStep step).filled below).isErased = below.isEmpty := by
  unfold filled
  cases below.isEmpty <;> rfl

/-- A node without any below it is refused, so that only the kept ones are attached. -/
theorem attach_filled (n : Node) (step : Step) (below : List Node) :
    n.attach ((ofStep step).filled below) = { n with children := n.children ++ kept step below } := by
  cases below with
  | nil =>
    rw [kept, append_children_nil]
    rfl
  | cons c below => rfl

end Node

namespace Search

/-- Whether the candidates that are left are skipped. A spent budget is noted. -/
def shouldStop (s : Search) (st : Progress) : Bool × Progress :=
  if s.hasEnough st.tally then (true, st)
  else match s.spentBudget? st.tally with
    | some maxNodes => (true, st.exhaust maxNodes)
    | none => (false, st)

/-- Without a way to the goal. -/
def prune (node : Node) (st : Progress) : Node × Progress := (node.erase, st.giveUp)

/-- Tries each step from `p` and attaches to `node` what comes of it. From patterns other than the goal `fill`
completes the new node. -/
def growEach (s : Search) (fill : Pattern → Node → Progress → Node × Progress) (p : Pattern) (depth : Nat) :
    List Step → Node → Progress → Node × Progress
  | [], node, st => (node, st)
  | step :: rest, node, st =>
    match s.shouldStop st with
    | (true, st) => (node, st)
    | (false, st) =>
      match step.perform? p with
      | none => s.growEach fill p depth rest node (st.reject step depth)
      | some q =>
        let (child, st) :=
          if q = s.goal then ({ Node.ofStep step with isGoal := true }, st.reach step (depth + 1))
          else fill q (Node.ofStep step) st.advance
        s.growEach fill p depth rest (node.attach child) st

/-- Fills the node for `p`, where `levels` more steps are allowed. -/
def grow (s : Search) : (levels depth : Nat) → Pattern → Node → Progress → Node × Progress
  | 0, depth, _, node, st => prune node (st.note (.depthLimit depth))
  | levels + 1, depth, p, node, st =>
    let (node, st) := s.growEach (s.grow levels (depth + 1)) p depth (p.candidates s.goal.numDims) node st
    if node.children.isEmpty then prune node st else (node, st)

/-- What `run` says, from a tree that is grown. -/
def growRoot (s : Search) (source : Pattern) : Outcome :=
  let start := Event.started source s.goal s.limits.maxDepth
  if source = s.goal then
    { root := { Node.root with isGoal := true }
      tally := { created := 1, reached := 1 }
      events := #[start, .alreadyThere] }
  else
    let (root, st) := s.grow s.limits.maxDepth 0 source Node.root ⟨{ created := 1 }, #[start]⟩
    { root := root
      tally := st.tally
      events := st.log.push (.finished st.tally) }

variable {s : Search} {p : Pattern} {depth levels : Nat} {st : Progress} {node : Node}

theorem shouldStop_eq (s : Search) (st : Progress) :
    s.shouldStop st = (s.isDone st.tally, s.halt st) := by
  unfold shouldStop isDone halt
  cases s.hasEnough st.tally with
  | true => rfl
  | false => cases s.spentBudget? st.tally <;> rfl

theorem halt_of_not_isDone (h : s.isDone st.tally = false) : s.halt st = st := by
  obtain ⟨he, hb⟩ := isDone_eq_false_iff.mp h
  simp [halt, he, hb]

/-- The children that a node had stay in front of those that the candidates bring. -/
theorem growEach_eq {fill : Pattern → Node → Progress → Node × Progress}
    {descend : Pattern → Progress → List Node × Progress}
    (hfill : ∀ q step st, fill q (Node.ofStep step) st =
      ((Node.ofStep step).filled (descend q st).1, (descend q st).2))
    (steps : List Step) (node : Node) (st : Progress) :
    s.growEach fill p depth steps node st =
      ({ node with children := node.children ++ (s.tryEach descend p depth steps st).1 },
        (s.tryEach descend p depth steps st).2) := by
  induction steps generalizing node st with
  | nil => rw [growEach, tryEach, Node.append_children_nil]
  | cons step rest ih =>
    rw [growEach, shouldStop_eq]
    cases h : s.isDone st.tally with
    | true => rw [tryEach_of_isDone h, Node.append_children_nil]
    | false =>
      rw [halt_of_not_isDone h]
      cases hs : step.perform? p with
      | none =>
        rw [tryEach_of_none h hs]
        exact ih node (st.reject step depth)
      | some q =>
        by_cases hq : q = s.goal
        · subst hq
          have hattached : node.attach { Node.ofStep step with isGoal := true } =
              { node with children := node.children ++ [⟨some step, true, false, []⟩] } := rfl
          simp only [tryEach_of_goal h hs, if_true, hattached, ih, List.append_assoc, List.singleton_append]
        · simp only [tryEach_of_ne_goal h hs hq, if_neg hq, hfill, Node.attach_filled, ih, List.append_assoc]

theorem grow_eq (levels depth : Nat) (p : Pattern) (hnode : node.children = []) (st : Progress) :
    s.grow levels depth p node st =
      (node.filled (s.explore levels depth p st).1, (s.explore levels depth p st).2) := by
  induction levels generalizing depth p node st with
  | zero => rfl
  | succ levels ih =>
    have hfill : ∀ q step st, s.grow levels (depth + 1) q (Node.ofStep step) st =
        ((Node.ofStep step).filled (s.explore levels (depth + 1) q st).1,
          (s.explore levels (depth + 1) q st).2) :=
      fun q step st => ih (depth + 1) q rfl st
    rw [explore_succ, grow, growEach_eq hfill, hnode, List.nil_append]
    rcases s.tryEach (s.explore levels (depth + 1)) p depth (p.candidates s.goal.numDims) st with
      ⟨_ | ⟨c, below⟩, st'⟩
    · rfl
    · rfl

/-- The node that the search fills is given up exactly if there is nothing below it to keep. -/
theorem isErased_grow (levels depth : Nat) (p : Pattern) (step : Step) (st : Progress) :
    (s.grow levels depth p (Node.ofStep step) st).1.isErased = (s.explore levels depth p st).1.isEmpty := by
  rw [grow_eq levels depth p rfl, Node.isErased_filled_ofStep]

theorem growRoot_eq_run (s : Search) (source : Pattern) : s.growRoot source = s.run source := by
  have hgrow : ∀ st, s.grow s.limits.maxDepth 0 source Node.root st =
      (Node.root.filled (s.explore s.limits.maxDepth 0 source st).1,
        (s.explore s.limits.maxDepth 0 source st).2) := grow_eq s.limits.maxDepth 0 source rfl
  unfold growRoot run
  simp only [hgrow]
  rfl

end Search
end AffineSearch
