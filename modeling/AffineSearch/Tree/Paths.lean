import AffineSearch.Tree.Basic

/-! The ways from the root of a tree to its goal nodes, from left to right. -/
namespace AffineSearch.Node

mutual

/-- The labels from this node on to each goal node, a goal node before those below it. -/
def paths : Node → List (List Step)
  | ⟨label, isGoal, _, children⟩ =>
    ((if isGoal then [[]] else []) ++ pathsIn children).map (label.toList ++ ·)

def pathsIn : List Node → List (List Step)
  | [] => []
  | n :: rest => n.paths ++ pathsIn rest

end

/-- A walk through a tree: the labels on the way to where it is, and the paths that it has listed. -/
structure Walk where
  trail : List Step := []
  listed : List (List Step) := []

namespace Walk

/-- Goes down to a node. -/
def enter (w : Walk) (label : Option Step) : Walk := { w with trail := w.trail ++ label.toList }

/-- Lists the way to a goal node. -/
def mark (w : Walk) (isGoal : Bool) : Walk :=
  if isGoal then { w with listed := w.listed ++ [w.trail] } else w

/-- Goes back up from a node. A label is taken off only where there was one. -/
def leave (w : Walk) (label : Option Step) : Walk :=
  if label.isSome then { w with trail := w.trail.dropLast } else w

end Walk

mutual

/-- Lists the paths in one walk, with one trail for the whole tree. -/
def collect : Node → Walk → Walk
  | ⟨label, isGoal, _, children⟩, w =>
    (collectIn children ((w.enter label).mark isGoal)).leave label

def collectIn : List Node → Walk → Walk
  | [], w => w
  | n :: rest, w => collectIn rest (n.collect w)

end

mutual

def reachesGoal : Node → Bool
  | ⟨_, isGoal, _, children⟩ => isGoal || anyReachesGoal children

def anyReachesGoal : List Node → Bool
  | [] => false
  | n :: rest => n.reachesGoal || anyReachesGoal rest

end

def firstPath? (n : Node) : Option (List Step) := n.paths.head?

/-- The leftmost of the shortest lists. -/
def shortest? {α : Type} : List (List α) → Option (List α)
  | [] => none
  | l :: rest =>
    match shortest? rest with
    | some r => if r.length < l.length then some r else some l
    | none => some l

def shortestPath? (n : Node) : Option (List Step) := shortest? n.paths

end AffineSearch.Node
