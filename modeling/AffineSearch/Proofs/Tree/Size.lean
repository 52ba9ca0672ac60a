import AffineSearch.Tree.Paths

/-! The size of trees: how many nodes and goal nodes there are, and on how many levels. -/
namespace AffineSearch.Node

mutual

/-- How many nodes are marked as the goal. -/
def numGoals : Node → Nat
  | ⟨_, isGoal, _, children⟩ => (if isGoal then 1 else 0) + numGoalsIn children

def numGoalsIn : List Node → Nat
  | [] => 0
  | n :: rest => n.numGoals + numGoalsIn rest

end

mutual

theorem length_paths : (n : Node) → n.paths.length = n.numGoals
  | ⟨label, isGoal, isErased, children⟩ => by
    have hbelow : (pathsIn children).length = numGoalsIn children := length_pathsIn children
    rw [paths, numGoals, List.length_map, List.length_append, hbelow]
    cases isGoal <;> rfl

theorem length_pathsIn : (ns : List Node) → (pathsIn ns).length = numGoalsIn ns
  | [] => rfl
  | n :: rest => by
    rw [pathsIn, numGoalsIn, List.length_append, length_paths n, length_pathsIn rest]

end

mutual

theorem height_lt_numNodes : (n : Node) → n.height < n.numNodes
  | ⟨label, isGoal, isErased, children⟩ => by
    have hbelow : levelsIn children ≤ numNodesIn children := levelsIn_le_numNodesIn children
    rw [height, numNodes]
    omega

theorem levelsIn_le_numNodesIn : (ns : List Node) → levelsIn ns ≤ numNodesIn ns
  | [] => Nat.le_refl 0
  | n :: rest => by
    have hn : n.height < n.numNodes := height_lt_numNodes n
    have hrest : levelsIn rest ≤ numNodesIn rest := levelsIn_le_numNodesIn rest
    rw [levelsIn, numNodesIn]
    omega

end

theorem numNodesIn_append (ns ms : List Node) :
    numNodesIn (ns ++ ms) = numNodesIn ns + numNodesIn ms := by
  induction ns with
  | nil => simp [numNodesIn]
  | cons n ns ih =>
    rw [List.cons_append, numNodesIn, numNodesIn, ih]
    omega

theorem levelsIn_append (ns ms : List Node) :
    levelsIn (ns ++ ms) = max (levelsIn ns) (levelsIn ms) := by
  induction ns with
  | nil => simp [levelsIn]
  | cons n ns ih =>
    rw [List.cons_append, levelsIn, levelsIn, ih]
    omega

theorem levelsIn_pos {ns : List Node} (h : ns ≠ []) : 1 ≤ levelsIn ns := by
  cases ns with
  | nil => exact absurd rfl h
  | cons n ns =>
    rw [levelsIn]
    omega

end AffineSearch.Node
