import AffineSearch.Proofs.Tree.Addresses

/-! The walk through a tree lists a path for each goal node, in the order of their addresses, and brings its
trail back as it was. -/
namespace AffineSearch.Node

/-- The addresses of the goal nodes. -/
def goalAddresses (n : Node) : List (List Nat) := n.addresses.filter n.isGoalAt

theorem mem_goalAddresses {n : Node} {address : List Nat} :
    address ∈ n.goalAddresses ↔ ∃ m, n.subtree? address = some m ∧ m.isGoal = true := by
  rw [goalAddresses, List.mem_filter, mem_addresses, isGoalAt]
  cases n.subtree? address <;> simp

theorem pathsIn_eq_flatMap (ns : List Node) : pathsIn ns = ns.flatMap paths := by
  induction ns with
  | nil => rfl
  | cons n ns ih => rw [pathsIn, ih, List.flatMap_cons]

theorem paths_eq (n : Node) :
    n.paths = ((if n.isGoal then [[]] else []) ++ n.children.flatMap paths).map (n.label.toList ++ ·) := by
  obtain ⟨label, isGoal, isErased, children⟩ := n
  rw [paths, pathsIn_eq_flatMap]

theorem paths_eq_map_goalAddresses (n : Node) : n.paths = n.goalAddresses.map n.labelsTo := by
  induction n using induction_children with
  | node n ih =>
    have hchild : ∀ p ∈ n.children.zipIdx,
        ((p.1.addresses.map (p.2 :: ·)).filter n.isGoalAt).map n.labelsTo =
          p.1.paths.map (n.label.toList ++ ·) := by
      intro p hp
      have hc : n.children[p.2]? = some p.1 := List.mem_zipIdx_iff_getElem?.mp hp
      have hgoal : n.isGoalAt ∘ (p.2 :: ·) = p.1.isGoalAt := funext (isGoalAt_cons hc)
      have hlabels : n.labelsTo ∘ (p.2 :: ·) = (n.label.toList ++ ·) ∘ p.1.labelsTo :=
        funext (labelsTo_cons hc)
      rw [ih p.1 (List.mem_of_getElem? hc), List.filter_map, hgoal, List.map_map, List.map_map, hlabels]
      rfl
    have hbelow : ((n.children.zipIdx.flatMap fun p => p.1.addresses.map (p.2 :: ·)).filter
        n.isGoalAt).map n.labelsTo = (n.children.flatMap paths).map (n.label.toList ++ ·) := by
      rw [List.filter_flatMap, List.map_flatMap, List.map_flatMap, List.flatMap_congr hchild]
      conv_rhs => rw [← List.zipIdx_map_fst 0 n.children, List.flatMap_map]
    have hself : n.isGoalAt [] = n.isGoal := rfl
    rw [paths_eq, goalAddresses, addresses_eq, List.filter_cons, hself, List.map_append, ← hbelow]
    cases n.isGoal
    · rfl
    · simp [labelsTo_nil]

mutual

theorem collect_eq : (n : Node) → (w : Walk) →
    n.collect w = ⟨w.trail, w.listed ++ n.paths.map (w.trail ++ ·)⟩
  | ⟨label, isGoal, isErased, children⟩, w => by
    rw [collect, collectIn_eq children, paths]
    cases label <;> cases isGoal <;> simp [Walk.enter, Walk.mark, Walk.leave, Function.comp_def]

theorem collectIn_eq : (ns : List Node) → (w : Walk) →
    collectIn ns w = ⟨w.trail, w.listed ++ (pathsIn ns).map (w.trail ++ ·)⟩
  | [], w => by simp [collectIn, pathsIn]
  | n :: rest, w => by
    rw [collectIn, collect_eq n, collectIn_eq rest, pathsIn, List.map_append, List.append_assoc]

end

/-- One walk lists the labels on the ways to the goal nodes, one way for each of them and the goal nodes in
pre-order. It adds them behind what is on its trail and leaves the trail as it was. The shortest path is the
first of those that no other is shorter than. -/
theorem collect_goal_paths (n : Node) :
    (∃ order : List (List Nat), order.Pairwise (List.Lex (· < ·)) ∧
      (∀ address, address ∈ order ↔ ∃ m, n.subtree? address = some m ∧ m.isGoal = true) ∧
      (n.collect {}).listed = order.map n.labelsTo ∧ n.paths = order.map n.labelsTo) ∧
    (∀ w : Walk, n.collect w = ⟨w.trail, w.listed ++ n.paths.map (w.trail ++ ·)⟩) ∧
    (n.reachesGoal = true ↔ n.paths ≠ []) ∧
    ∀ path, n.shortestPath? = some path ↔ ∃ before after, n.paths = before ++ path :: after ∧
      (∀ other ∈ before, path.length < other.length) ∧ ∀ other ∈ after, path.length ≤ other.length := by
  have hlisted : (n.collect {}).listed = n.paths := by
    rw [collect_eq]
    simp
  have hsorted : n.goalAddresses.Pairwise (List.Lex (· < ·)) := n.addresses_pairwise_lex.filter _
  refine ⟨⟨n.goalAddresses, hsorted, fun _ => mem_goalAddresses, ?_, n.paths_eq_map_goalAddresses⟩,
    n.collect_eq, ?_, fun _ => shortest?_eq_some_iff⟩
  · rw [hlisted, paths_eq_map_goalAddresses]
  · rw [reachesGoal_iff]
    exact ⟨fun ⟨_, hpath⟩ => List.ne_nil_of_mem hpath, List.exists_mem_of_ne_nil _⟩

end AffineSearch.Node
