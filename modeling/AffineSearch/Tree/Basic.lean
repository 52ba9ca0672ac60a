import AffineSearch.Step.Basic

/-! Trees of steps. A node is labelled with the step that leads to it from its parent and may be marked
as a place where the goal is reached. -/
namespace AffineSearch

structure Node where
  label : Option Step
  isGoal : Bool
  isErased : Bool
  children : List Node

namespace Node

/-- A node that no step leads to. -/
def root : Node := ⟨none, false, false, []⟩

def ofStep (s : Step) : Node := ⟨some s, false, false, []⟩

/-- Adds a last child. Erased nodes are refused. -/
def attach? (parent child : Node) : Option Node :=
  if child.isErased then none
  else some { parent with children := parent.children ++ [child] }

/-- Discards all below the node and marks it as given up. -/
def erase (n : Node) : Node := { n with isGoal := false, isErased := true, children := [] }

mutual

def numNodes : Node → Nat
  | ⟨_, _, _, children⟩ => 1 + numNodesIn children

def numNodesIn : List Node → Nat
  | [] => 0
  | n :: rest => n.numNodes + numNodesIn rest

end

mutual

/-- The number of edges on the longest way down. -/
def height : Node → Nat
  | ⟨_, _, _, children⟩ => levelsIn children

def levelsIn : List Node → Nat
  | [] => 0
  | n :: rest => max (n.height + 1) (levelsIn rest)

end

mutual

private def nodeDecEq : (a b : Node) → Decidable (a = b)
  | ⟨l, g, e, c⟩, ⟨l', g', e', c'⟩ =>
    if h : l = l' ∧ g = g' ∧ e = e' then
      match nodesDecEq c c' with
      | isTrue hc => isTrue (by obtain ⟨rfl, rfl, rfl⟩ := h; rw [hc])
      | isFalse hc => isFalse fun heq => hc (by injection heq)
    else isFalse fun heq => h (by injection heq; exact ⟨‹_›, ‹_›, ‹_›⟩)

private def nodesDecEq : (a b : List Node) → Decidable (a = b)
  | [], [] => isTrue rfl
  | [], _ :: _ => isFalse nofun
  | _ :: _, [] => isFalse nofun
  | a :: as, b :: bs =>
    match nodeDecEq a b, nodesDecEq as bs with
    | isTrue ha, isTrue has => isTrue (by rw [ha, has])
    | isFalse ha, _ => isFalse fun heq => ha (List.cons.inj heq).1
    | _, isFalse has => isFalse fun heq => has (List.cons.inj heq).2

end

instance : DecidableEq Node := nodeDecEq

end Node
end AffineSearch
