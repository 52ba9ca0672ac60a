import AffineSearch.Proofs.Search.Recorded

/-! The tree that a search leaves behind: a single root, or a tree all of whose leaves are at the goal. -/
namespace AffineSearch

/-- How a search can end. -/
inductive Verdict where
  | alreadyThere | exhausted | found
  deriving DecidableEq

namespace Node

/-- Below a root without a label, only ways to the goal are kept. -/
structure IsTrimmed (maxDepth : Nat) (root : Node) : Prop where
  label_eq : root.label = none
  isGoal_eq : root.isGoal = false
  isErased_eq : ∀ path n, root.At path n → n.isErased = false
  isSome_label : ∀ path n, root.At path n → ∀ c ∈ n.children, c.label.isSome = true
  leaf_iff : ∀ path n, root.At path n → (n.children = [] ↔ n.isGoal = true)
  height_pos : 1 ≤ root.height
  height_le : root.height ≤ maxDepth

/-- What the tree looks like, where steps are taken down to `maxDepth`. -/
def HasShape (maxDepth : Nat) : Verdict → Node → Prop
  | .alreadyThere, root => root = ⟨none, true, false, []⟩
  | .exhausted, root => root = ⟨none, false, true, []⟩
  | .found, root => root.IsTrimmed maxDepth

theorem HasShape.marks {maxDepth : Nat} {v : Verdict} {root : Node} (h : root.HasShape maxDepth v) :
    root.isGoal = decide (v = .alreadyThere) ∧ root.isErased = decide (v = .exhausted) := by
  cases v with
  | alreadyThere =>
    obtain rfl : root = _ := h
    exact ⟨rfl, rfl⟩
  | exhausted =>
    obtain rfl : root = _ := h
    exact ⟨rfl, rfl⟩
  | found => exact ⟨h.isGoal_eq, h.isErased_eq _ _ .self⟩

theorem HasShape.unique {maxDepth : Nat} {v w : Verdict} {root : Node} (hv : root.HasShape maxDepth v)
    (hw : root.HasShape maxDepth w) : v = w := by
  have hgoal := hv.marks.1.symm.trans hw.marks.1
  have herased := hv.marks.2.symm.trans hw.marks.2
  rw [decide_eq_decide] at hgoal herased
  cases v with
  | alreadyThere => exact (hgoal.mp rfl).symm
  | exhausted => exact (herased.mp rfl).symm
  | found =>
    cases w with
    | alreadyThere => exact hgoal.mpr rfl
    | exhausted => exact herased.mpr rfl
    | found => rfl

/-- What holds of the root and is handed down from each node to its children holds everywhere. -/
theorem At.of_inherited {P : Node → Prop} {root n : Node} {path : List Step} (h : root.At path n)
    (hroot : P root) (hchild : ∀ m, P m → ∀ c ∈ m.children, P c) : P n := by
  induction h with
  | self => exact hroot
  | child hc _ ih => exact ih (hchild _ hroot _ hc)

end Node

namespace Recorded
variable {goal p : Pattern} {steps : List Step} {nodes : List Node}

/-- Nodes are recorded only where they are at the goal or have recorded nodes below them. -/
theorem of_mem (h : Recorded goal p steps nodes) {n : Node} (hn : n ∈ nodes) :
    n.label.isSome = true ∧ n.isErased = false ∧ (n.children = [] ↔ n.isGoal = true) ∧
      ∃ q, Recorded goal q (q.candidates goal.numDims) n.children := by
  induction h with
  | nil => cases hn
  | skip _ ih => exact ih hn
  | atGoal _ _ ih =>
    rcases List.mem_cons.mp hn with rfl | hn
    · exact ⟨rfl, rfl, by simp, goal, .nil⟩
    · exact ih hn
  | above _ _ hne hb _ _ ih =>
    rcases List.mem_cons.mp hn with rfl | hn
    · exact ⟨rfl, rfl, by simp [hne], _, hb⟩
    · exact ih hn

end Recorded

namespace Search

theorem levelsIn_explore_le (s : Search) (levels depth : Nat) (p : Pattern) (st : Progress) :
    Node.levelsIn (s.explore levels depth p st).1 ≤ levels := by
  refine explore_induction
    (fun levels _ _ _ _ r => Node.levelsIn r.1 ≤ levels + 1)
    (fun levels _ _ _ r => Node.levelsIn r.1 ≤ levels)
    ?limit ?settled ?nil ?halted ?rejected ?reached ?descended levels depth p st
  case limit => exact fun _ _ _ => Nat.zero_le _
  case settled =>
    intro levels depth p st r h
    rwa [settle_fst]
  case nil => exact fun _ _ _ _ => Nat.zero_le _
  case halted => exact fun _ _ _ _ _ _ _ => Nat.zero_le _
  case rejected => exact fun _ _ _ _ _ _ _ _ _ h => h
  case reached =>
    intro levels depth p step rest st r _ _ h
    have hleaf : (Node.mk (some step) true false []).height = 0 := rfl
    rw [Node.levelsIn, hleaf]
    omega
  case descended =>
    intro levels depth p q step rest st b r _ _ _ hb h
    have hkept := Node.levelsIn_kept_le step b.1
    rw [Node.levelsIn_append]
    omega

theorem isTrimmed_of_descent_ne_nil {s : Search} {source : Pattern} (h : (s.descent source).1 ≠ []) :
    (Node.mk none false false (s.descent source).1).IsTrimmed s.limits.maxDepth := by
  have hrecorded := s.descent_recorded source
  have hall : ∀ path n, (Node.mk none false false (s.descent source).1).At path n →
      n.isErased = false ∧ (n.children = [] ↔ n.isGoal = true) ∧
        ∃ q, Recorded s.goal q (q.candidates s.goal.numDims) n.children := by
    intro path n hn
    apply hn.of_inherited
    · exact ⟨rfl, by simp [h], source, hrecorded⟩
    · rintro m ⟨-, -, q, hq⟩ c hc
      exact (hq.of_mem hc).2
  constructor
  case label_eq => rfl
  case isGoal_eq => rfl
  case isErased_eq => exact fun path n hn => (hall path n hn).1
  case isSome_label =>
    intro path n hn c hc
    obtain ⟨-, -, q, hq⟩ := hall path n hn
    exact (hq.of_mem hc).1
  case leaf_iff => exact fun path n hn => (hall path n hn).2.1
  case height_pos => exact Node.levelsIn_pos h
  case height_le => exact s.levelsIn_explore_le _ _ _ _

theorem run_hasShape_of_ne {s : Search} {source : Pattern} (h : source ≠ s.goal) :
    (s.run source).root.HasShape s.limits.maxDepth
      (if (s.run source).root.reachesGoal then .found else .exhausted) := by
  rcases run_root_cases h with ⟨-, hroot, hreach⟩ | ⟨hne, hroot, hreach⟩
  · rw [hreach]
    exact hroot
  · rw [hreach, hroot]
    exact isTrimmed_of_descent_ne_nil hne

/-- The tree has one of the three shapes. Which one says whether there was anything to search for and
whether it was found. -/
theorem run_root_shape (s : Search) (source : Pattern) :
    let root := (s.run source).root
    (∃! v, root.HasShape s.limits.maxDepth v) ∧
      (root.HasShape s.limits.maxDepth .alreadyThere ↔ source = s.goal) ∧
      (root.HasShape s.limits.maxDepth .exhausted ↔ root.reachesGoal = false) := by
  intro root
  have hshape : ∃ v, root.HasShape s.limits.maxDepth v ∧ (v = .alreadyThere ↔ source = s.goal) ∧
      (v = .exhausted ↔ root.reachesGoal = false) := by
    by_cases h : source = s.goal
    · have hroot : root = ⟨none, true, false, []⟩ := run_root_of_eq h
      exact ⟨.alreadyThere, hroot, by simp [h], by simp [hroot, Node.reachesGoal]⟩
    · refine ⟨_, run_hasShape_of_ne h, ?_, ?_⟩
      · split <;> simp [h]
      · split <;> simp_all [root]
  obtain ⟨v, hv, hthere, hexhausted⟩ := hshape
  have hiff : ∀ w, root.HasShape s.limits.maxDepth w ↔ v = w := by
    intro w
    constructor
    · exact hv.unique
    · rintro rfl
      exact hv
  refine ⟨⟨v, hv, fun w hw => (hv.unique hw).symm⟩, ?_, ?_⟩
  · rw [hiff, hthere]
  · rw [hiff, hexhausted]

/-- Either dimension can go at once. Once they have changed places they can also be merged. -/
example :
    let root := (run ⟨.transposed [0], { maxDepth := 2 }⟩ (.transposed [1, 0])).root
    let leaf (step : Step) : Node := ⟨some step, true, false, []⟩
    root = ⟨none, false, false, [leaf (.unroll 0), leaf (.unroll 1), ⟨some (.permute 0 1 (.full 1)), false, false,
        [leaf (.unroll 0), leaf (.unroll 1), leaf (.mergeDims 0 1)]⟩]⟩ ∧
      root.height = 2 := by
  decide +kernel

end Search
end AffineSearch
