import AffineSearch.Proofs.Search.Candidates
import AffineSearch.Proofs.Search.Descent
import AffineSearch.Proofs.Tree.Paths

/-! What a search records. Whatever bounds it, each node stands for the pattern that its labels lead to. -/
namespace AffineSearch

/-- One operand, indexed by the dimensions in this order. -/
def Pattern.transposed (order : List Nat) : Pattern :=
  ⟨[⟨order.length, 0, order.map .dim⟩], List.replicate order.length .parallel⟩

/-- The nodes below `p`. They are labelled with some of the steps, in their order. -/
inductive Recorded (goal : Pattern) : Pattern → List Step → List Node → Prop
  | nil {p steps} : Recorded goal p steps []
  | skip {p step steps nodes} : Recorded goal p steps nodes → Recorded goal p (step :: steps) nodes
  | atGoal {p step steps nodes} : step.perform? p = some goal → Recorded goal p steps nodes →
      Recorded goal p (step :: steps) (⟨some step, true, false, []⟩ :: nodes)
  | above {p q step steps below nodes} : step.perform? p = some q → q ≠ goal → below ≠ [] →
      Recorded goal q (q.candidates goal.numDims) below → Recorded goal p steps nodes →
      Recorded goal p (step :: steps) (⟨some step, false, false, below⟩ :: nodes)

structure Node.Represents (goal p : Pattern) (n : Node) : Prop where
  isErased_eq : n.isErased = false
  isGoal_iff : n.isGoal = true ↔ p = goal
  children : Recorded goal p (p.candidates goal.numDims) n.children

namespace Recorded
variable {goal p q : Pattern} {step : Step} {steps : List Step} {nodes below : List Node}

theorem kept (hs : step.perform? p = some q) (hq : q ≠ goal)
    (hb : Recorded goal q (q.candidates goal.numDims) below) (hn : Recorded goal p steps nodes) :
    Recorded goal p (step :: steps) (Node.kept step below ++ nodes) := by
  cases below with
  | nil => exact hn.skip
  | cons n below => exact .above hs hq (List.cons_ne_nil _ _) hb hn

theorem exists_sublist (h : Recorded goal p steps nodes) :
    ∃ labels : List Step, labels.Sublist steps ∧ nodes.map (·.label) = labels.map some := by
  induction h with
  | nil => exact ⟨[], List.nil_sublist _, rfl⟩
  | skip _ ih =>
    obtain ⟨labels, hl, hm⟩ := ih
    exact ⟨labels, hl.cons _, hm⟩
  | atGoal _ _ ih =>
    obtain ⟨labels, hl, hm⟩ := ih
    exact ⟨_ :: labels, hl.cons_cons _, by rw [List.map_cons, hm]; rfl⟩
  | above _ _ _ _ _ _ ih =>
    obtain ⟨labels, hl, hm⟩ := ih
    exact ⟨_ :: labels, hl.cons_cons _, by rw [List.map_cons, hm]; rfl⟩

theorem represents (h : Recorded goal p steps nodes) {n : Node} (hn : n ∈ nodes) :
    ∃ step q, n.label = some step ∧ step.perform? p = some q ∧ n.Represents goal q := by
  induction h with
  | nil => cases hn
  | skip _ ih => exact ih hn
  | atGoal hs _ ih =>
    rcases List.mem_cons.mp hn with rfl | hn
    · exact ⟨_, _, rfl, hs, rfl, by simp, .nil⟩
    · exact ih hn
  | above hs hq _ hb _ _ ih =>
    rcases List.mem_cons.mp hn with rfl | hn
    · exact ⟨_, _, rfl, hs, rfl, by simp [hq], hb⟩
    · exact ih hn

theorem pathsIn_ne_nil (h : Recorded goal p steps nodes) (hne : nodes ≠ []) :
    Node.pathsIn nodes ≠ [] := by
  induction h with
  | nil => exact absurd rfl hne
  | skip _ ih => exact ih hne
  | atGoal _ _ _ => simp [Node.pathsIn, Node.paths]
  | above _ _ hb _ _ ihb _ => simp [Node.pathsIn, Node.paths, ihb hb]

end Recorded

theorem Node.At.represents {goal p : Pattern} {n m : Node} {path : List Step} (h : n.At path m)
    (hn : n.Represents goal p) :
    ∃ rest q, path = n.label.toList ++ rest ∧ p.replay? rest = some q ∧ m.Represents goal q := by
  induction h generalizing p with
  | self => exact ⟨[], p, by simp, rfl, hn⟩
  | child hc _ ih =>
    obtain ⟨step, p', hl, hs, hr⟩ := hn.children.represents hc
    obtain ⟨rest, q, rfl, hq, hm⟩ := ih hr
    refine ⟨step :: rest, q, by simp [hl], ?_, hm⟩
    simpa [Pattern.replay?, hs] using hq

namespace Search

theorem explore_recorded (s : Search) (levels depth : Nat) (p : Pattern) (st : Progress) :
    Recorded s.goal p (p.candidates s.goal.numDims) (s.explore levels depth p st).1 := by
  refine explore_induction
    (fun _ _ p steps _ r => Recorded s.goal p steps r.1)
    (fun _ _ p _ r => Recorded s.goal p (p.candidates s.goal.numDims) r.1)
    ?limit ?settled ?nil ?halted ?rejected ?reached ?descended levels depth p st
  case limit => exact fun _ _ _ => .nil
  case settled => exact fun _ _ _ _ r h => (settle_fst r).symm ▸ h
  case nil => exact fun _ _ _ _ => .nil
  case halted => exact fun _ _ _ _ _ _ _ => .nil
  case rejected => exact fun _ _ _ _ _ _ _ _ _ h => h.skip
  case reached => exact fun _ _ _ _ _ _ _ _ hs h => .atGoal hs h
  case descended => exact fun _ _ _ _ _ _ _ _ _ _ hs hq hb h => .kept hs hq hb h

theorem descent_recorded (s : Search) (source : Pattern) :
    Recorded s.goal source (source.candidates s.goal.numDims) (s.descent source).1 :=
  s.explore_recorded _ _ _ _

/-- Either nothing is left below the root, which is erased, or there is a match below it. -/
theorem run_root_cases {s : Search} {source : Pattern} (h : source ≠ s.goal) :
    ((s.descent source).1 = [] ∧ (s.run source).root = ⟨none, false, true, []⟩ ∧
        (s.run source).root.reachesGoal = false) ∨
      ((s.descent source).1 ≠ [] ∧ (s.run source).root = ⟨none, false, false, (s.descent source).1⟩ ∧
        (s.run source).root.reachesGoal = true) := by
  by_cases hnil : (s.descent source).1 = []
  · have hroot : (s.run source).root = ⟨none, false, true, []⟩ := by
      rw [run_root_of_ne h, hnil]
      rfl
    exact Or.inl ⟨hnil, hroot, by rw [hroot]; rfl⟩
  · have hroot : (s.run source).root = ⟨none, false, false, (s.descent source).1⟩ := by
      rw [run_root_of_ne h, if_neg (by simpa using hnil)]
    obtain ⟨path, hpath⟩ := List.exists_mem_of_ne_nil _ ((s.descent_recorded source).pathsIn_ne_nil hnil)
    refine Or.inr ⟨hnil, hroot, Node.reachesGoal_iff.mpr ⟨path, ?_⟩⟩
    rw [hroot]
    simpa [Node.paths] using hpath

theorem run_represents (s : Search) (source : Pattern) :
    (s.run source).root = ⟨none, false, true, []⟩ ∨ (s.run source).root.Represents s.goal source := by
  by_cases h : source = s.goal
  · rw [run_root_of_eq h]
    exact Or.inr ⟨rfl, by simp [h], .nil⟩
  · rw [run_root_of_ne h]
    split
    · exact Or.inl rfl
    · exact Or.inr ⟨rfl, by simp [h], s.explore_recorded _ _ _ _⟩

/-- The labels on the way to each node can be performed on the source, and the marks tell where the
goal is. Labels below one parent are different candidates of its pattern, in their order. -/
theorem run_nodes_sound (s : Search) (source : Pattern) :
    let root := (s.run source).root
    (∀ path n, root.At path n → (n = root ∧ n.isErased = true) ∨
      ∃ q, source.replay? path = some q ∧ (n.isGoal = true ↔ q = s.goal) ∧
        ∃ labels : List Step, n.children.map (·.label) = labels.map some ∧ labels.Nodup ∧
          labels.Sublist (q.candidates s.goal.numDims)) ∧
    ∀ path ∈ root.paths, source.replay? path = some s.goal := by
  intro root
  have hlabel : root.label = none := s.run_root_label source
  rcases s.run_represents source with herased | hroot
  · have hempty : root = ⟨none, false, true, []⟩ := herased
    constructor
    · intro path n hn
      rw [hempty] at hn
      cases hn with
      | self => exact Or.inl ⟨hempty.symm, rfl⟩
      | child hc _ => cases hc
    · intro path hp
      rw [hempty] at hp
      simp [Node.paths, Node.pathsIn] at hp
  · have hat : ∀ path n, root.At path n → ∃ q, source.replay? path = some q ∧ n.Represents s.goal q := by
      intro path n hn
      obtain ⟨rest, q, rfl, hq, hr⟩ := hn.represents hroot
      exact ⟨q, by simpa [hlabel] using hq, hr⟩
    constructor
    · intro path n hn
      obtain ⟨q, hq, hr⟩ := hat path n hn
      obtain ⟨labels, hsub, hmap⟩ := hr.children.exists_sublist
      exact Or.inr ⟨q, hq, hr.isGoal_iff, labels, hmap, (q.candidates_nodup _).sublist hsub, hsub⟩
    · intro path hp
      obtain ⟨n, hn, hg⟩ := Node.mem_paths_iff_at.mp hp
      obtain ⟨q, hq, hr⟩ := hat path n hn
      rw [hq, hr.isGoal_iff.mp hg]

/-- Two exchanges rotate three results. The node between them is not at the goal. -/
theorem run_nodes_sound_rotation :
    let s : Search := ⟨.transposed [2, 0, 1], { maxDepth := 2, maxNodes := some 9 }⟩
    let root := (s.run (.transposed [0, 1, 2])).root
    let first := Step.permute 0 1 (.full 1)
    let n : Node := ⟨some first, false, false, [⟨some (.permute 0 2 (.full 1)), true, false, []⟩]⟩
    root.At [first] n ∧ ((n = root ∧ n.isErased = true) ∨
      ∃ q, (Pattern.transposed [0, 1, 2]).replay? [first] = some q ∧ (n.isGoal = true ↔ q = s.goal) ∧
        ∃ labels : List Step, n.children.map (·.label) = labels.map some ∧ labels.Nodup ∧
          labels.Sublist (q.candidates s.goal.numDims)) := by
  intro s root first n
  have hn : n ∈ root.children := by decide +kernel
  have hat : root.At [first] n := .child hn .self
  exact ⟨hat, (run_nodes_sound s _).1 _ _ hat⟩

end Search
end AffineSearch
