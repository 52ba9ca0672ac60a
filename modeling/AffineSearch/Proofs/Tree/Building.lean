import AffineSearch.Proofs.Search.Shape
import AffineSearch.Proofs.Tree.Size

/-! Trees that are built by hand out of new nodes, of trees that searches leave behind, and of copies and
children of each other. Below the root of such a tree no node is marked as given up. -/
namespace AffineSearch

/-- What can be done with the trees at hand, which are counted from 0. -/
inductive Action where
  | makeRoot
  | makeNode (s : Step)
  | solve (s : Search) (source : Pattern)
  | copy (i : Nat)
  | copyChild (i position : Nat)
  | attach (parent child : Nat)
  | erase (i : Nat)

namespace Action

/-- New trees come last. A child to attach is used up, even if it is refused. Nothing is done where there is no
such tree. -/
def perform : Action → List Node → List Node
  | makeRoot, trees => trees ++ [Node.root]
  | makeNode s, trees => trees ++ [Node.ofStep s]
  | solve s source, trees => trees ++ [(s.run source).root]
  | copy i, trees => trees ++ trees[i]?.toList
  | copyChild i position, trees => trees ++ (trees[i]?.bind (·.children[position]?)).toList
  | attach i j, trees =>
    match trees[i]?, trees[j]? with
    | some parent, some child =>
      if i = j then trees else (trees.set i ((parent.attach? child).getD parent)).eraseIdx j
    | _, _ => trees
  | erase i, trees =>
    match trees[i]? with
    | some n => trees.set i n.erase
    | none => trees

/-- The trees at hand after some actions. -/
def build (actions : List Action) : List Node := actions.foldl (fun trees a => a.perform trees) []

end Action

namespace Node

/-- No node below the root is given up. -/
def IsKeptBelow (n : Node) : Prop := ∀ c ∈ n.children, ∀ path m, c.At path m → m.isErased = false

theorem isKeptBelow_of_children_eq_nil {n : Node} (h : n.children = []) : n.IsKeptBelow := by
  intro c hc
  rw [h] at hc
  cases hc

theorem IsKeptBelow.of_mem_children {n c : Node} (h : n.IsKeptBelow) (hc : c ∈ n.children) :
    c.IsKeptBelow := fun _ hd _ _ hm => h c hc _ _ (.child hd hm)

theorem attach?_eq_some_iff {parent child grown : Node} :
    parent.attach? child = some grown ↔
      child.isErased = false ∧ grown = { parent with children := parent.children ++ [child] } := by
  unfold attach?
  cases child.isErased <;> simp [eq_comm]

theorem attach?_eq_none_iff {parent child : Node} :
    parent.attach? child = none ↔ child.isErased = true := by
  unfold attach?
  cases child.isErased <;> simp

theorem IsKeptBelow.attach? {parent child grown : Node} (hp : parent.IsKeptBelow) (hc : child.IsKeptBelow)
    (h : parent.attach? child = some grown) : grown.IsKeptBelow := by
  obtain ⟨hkept, rfl⟩ := attach?_eq_some_iff.mp h
  intro c hmem path m hm
  rcases List.mem_append.mp hmem with hmem | hmem
  · exact hp c hmem path m hm
  · obtain rfl := List.mem_singleton.mp hmem
    cases hm with
    | self => exact hkept
    | child hd hm => exact hc _ hd _ _ hm

theorem HasShape.isKeptBelow {maxDepth : Nat} {v : Verdict} {root : Node} (h : root.HasShape maxDepth v) :
    root.IsKeptBelow := by
  cases v with
  | alreadyThere =>
    obtain rfl : root = _ := h
    exact isKeptBelow_of_children_eq_nil rfl
  | exhausted =>
    obtain rfl : root = _ := h
    exact isKeptBelow_of_children_eq_nil rfl
  | found => exact fun c hc path m hm => h.isErased_eq _ _ (.child hc hm)

end Node

theorem Search.run_isKeptBelow (s : Search) (source : Pattern) : (s.run source).root.IsKeptBelow := by
  by_cases h : source = s.goal
  · rw [run_root_of_eq h]
    exact Node.isKeptBelow_of_children_eq_nil rfl
  · exact (run_hasShape_of_ne h).isKeptBelow

namespace Action
variable {trees : List Node}

theorem forall_mem_set (i : Nat) {new : Node} (h : ∀ n ∈ trees, n.IsKeptBelow) (hnew : new.IsKeptBelow) :
    ∀ n ∈ trees.set i new, n.IsKeptBelow := by
  intro n hn
  rcases List.mem_or_eq_of_mem_set hn with hn | rfl
  · exact h n hn
  · exact hnew

theorem forall_mem_perform (a : Action) (h : ∀ n ∈ trees, n.IsKeptBelow) :
    ∀ n ∈ a.perform trees, n.IsKeptBelow := by
  cases a with
  | makeRoot =>
    have hnew : Node.root.IsKeptBelow := Node.isKeptBelow_of_children_eq_nil rfl
    exact List.forall_mem_append.mpr ⟨h, List.forall_mem_singleton.mpr hnew⟩
  | makeNode s =>
    have hnew : (Node.ofStep s).IsKeptBelow := Node.isKeptBelow_of_children_eq_nil rfl
    exact List.forall_mem_append.mpr ⟨h, List.forall_mem_singleton.mpr hnew⟩
  | solve s source =>
    exact List.forall_mem_append.mpr ⟨h, List.forall_mem_singleton.mpr (s.run_isKeptBelow source)⟩
  | copy i =>
    refine List.forall_mem_append.mpr ⟨h, ?_⟩
    intro n hn
    exact h n (List.mem_of_getElem? (Option.mem_toList.mp hn))
  | copyChild i position =>
    refine List.forall_mem_append.mpr ⟨h, ?_⟩
    intro c hc
    obtain ⟨n, hn, hchild⟩ := Option.bind_eq_some_iff.mp (Option.mem_toList.mp hc)
    exact (h n (List.mem_of_getElem? hn)).of_mem_children (List.mem_of_getElem? hchild)
  | attach i j =>
    rw [perform]
    split
    · next parent child hparent hchild =>
      have hp : parent.IsKeptBelow := h parent (List.mem_of_getElem? hparent)
      have hc : child.IsKeptBelow := h child (List.mem_of_getElem? hchild)
      have hgrown : ((parent.attach? child).getD parent).IsKeptBelow := by
        cases hgrown : parent.attach? child with
        | none => exact hp
        | some grown => exact hp.attach? hc hgrown
      split
      · exact h
      · intro n hn
        exact forall_mem_set i h hgrown n (List.mem_of_mem_eraseIdx hn)
    · exact h
  | erase i =>
    rw [perform]
    split
    · exact forall_mem_set i h (Node.isKeptBelow_of_children_eq_nil rfl)
    · exact h

theorem forall_mem_foldl_perform (actions : List Action) (h : ∀ n ∈ trees, n.IsKeptBelow) :
    ∀ n ∈ actions.foldl (fun trees a => a.perform trees) trees, n.IsKeptBelow := by
  induction actions generalizing trees with
  | nil => exact h
  | cons a actions ih => exact ih (a.forall_mem_perform h)

theorem build_concat (actions : List Action) (a : Action) :
    build (actions ++ [a]) = a.perform (build actions) := by
  simp [build]

/-- In every tree that can be built, nodes are given up at the root only, and there are more nodes than
levels below it. The last action says what an erased tree is and what an attached child does to its parent,
which may be an erased one itself. -/
theorem build_keeps_trees (actions : List Action) :
    let trees := build actions
    (∀ n ∈ trees, n.IsKeptBelow ∧ n.height < n.numNodes) ∧
    (∀ i n, trees[i]? = some n → ∃ m, build (actions ++ [.erase i]) = trees.set i m ∧
      m.label = n.label ∧ m.children = [] ∧ m.isGoal = false ∧ m.isErased = true) ∧
    ∀ i j parent child, i ≠ j → trees[i]? = some parent → trees[j]? = some child →
      (child.isErased = true → parent.attach? child = none ∧
        build (actions ++ [.attach i j]) = trees.eraseIdx j) ∧
      (child.isErased = false → ∃ grown, parent.attach? child = some grown ∧
        build (actions ++ [.attach i j]) = (trees.set i grown).eraseIdx j ∧
        grown.children = parent.children ++ [child] ∧ grown.label = parent.label ∧
        grown.isGoal = parent.isGoal ∧ grown.isErased = parent.isErased) := by
  intro trees
  refine ⟨?_, ?_, ?_⟩
  · intro n hn
    have hempty : ∀ n ∈ ([] : List Node), n.IsKeptBelow := List.forall_mem_nil _
    exact ⟨forall_mem_foldl_perform actions hempty n hn, n.height_lt_numNodes⟩
  · intro i n hi
    refine ⟨n.erase, ?_, rfl, rfl, rfl, rfl⟩
    rw [build_concat, perform, hi]
  · intro i j parent child hij hparent hchild
    have hlast : build (actions ++ [.attach i j]) =
        (trees.set i ((parent.attach? child).getD parent)).eraseIdx j := by
      rw [build_concat, perform, hparent, hchild]
      exact if_neg hij
    constructor
    · intro herased
      have hrefused : parent.attach? child = none := Node.attach?_eq_none_iff.mpr herased
      obtain ⟨hi, rfl⟩ := List.getElem?_eq_some_iff.mp hparent
      refine ⟨hrefused, ?_⟩
      rw [hlast, hrefused, Option.getD_none, List.set_getElem_self]
    · intro hkept
      refine ⟨_, Node.attach?_eq_some_iff.mpr ⟨hkept, rfl⟩, ?_, rfl, rfl, rfl, rfl⟩
      rw [hlast, Node.attach?_eq_some_iff.mpr ⟨hkept, rfl⟩]
      rfl

/-- The tree of a search is erased and gets its first child back. It can take children, but is none itself. -/
theorem build_keeps_trees_erased_root :
    let rotation : Search := ⟨.transposed [2, 0, 1], { maxDepth := 2 }⟩
    let actions := [.solve rotation (.transposed [0, 1, 2]), .copyChild 0 0, .erase 0, .attach 0 1, .makeRoot]
    let leaf : Node := ⟨some (.permute 0 2 (.full 1)), true, false, []⟩
    let parent : Node := ⟨none, false, true, [⟨some (.permute 0 1 (.full 1)), false, false, [leaf]⟩]⟩
    (parent ∈ build actions ∧ parent.IsKeptBelow ∧ parent.height < parent.numNodes) ∧
    (1 ≠ 0 ∧ (build actions)[1]? = some Node.root ∧ (build actions)[0]? = some parent ∧
      Node.root.attach? parent = none ∧
      build (actions ++ [.attach 1 0]) = (build actions).eraseIdx 0) ∧
    (∃ m, build (actions ++ [.erase 0]) = (build actions).set 0 m ∧ m.children = [] ∧ m.isErased = true) ∧
    ∃ grown, parent.attach? Node.root = some grown ∧ grown.children = parent.children ++ [Node.root] ∧
      grown.isErased = true := by
  intro rotation actions leaf parent
  have htrees : build actions = [parent, Node.root] := by decide +kernel
  obtain ⟨hkept, herase, hattach⟩ := build_keeps_trees actions
  have hparent : (build actions)[0]? = some parent := by rw [htrees]; rfl
  have hroot : (build actions)[1]? = some Node.root := by rw [htrees]; rfl
  have hmem : parent ∈ build actions := List.mem_of_getElem? hparent
  obtain ⟨hrefused, hlast⟩ := (hattach 1 0 _ _ (by decide) hroot hparent).1 rfl
  obtain ⟨m, hm, -, hchildren, -, herased⟩ := herase 0 _ hparent
  obtain ⟨grown, hgrown, -, hbelow, -, -, hmark⟩ := (hattach 0 1 _ _ (by decide) hparent hroot).2 rfl
  exact ⟨⟨hmem, hkept parent hmem⟩, ⟨by decide, hroot, hparent, hrefused, hlast⟩,
    ⟨m, hm, hchildren, herased⟩, grown, hgrown, hbelow, hmark⟩

end Action
end AffineSearch
