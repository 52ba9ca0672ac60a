import AffineSearch.Tree.Paths

/-! The nodes of a tree by the labels that lead to them. The listed paths are those to the goal nodes. -/
namespace AffineSearch.Node

/-- `m` lies in the tree of `n`, at the end of these labels. The label of `n` is the first of them. -/
inductive At : Node → List Step → Node → Prop
  | self {n} : At n n.label.toList n
  | child {n c m path} : c ∈ n.children → At c path m → At n (n.label.toList ++ path) m

@[elab_as_elim]
theorem induction_children {motive : Node → Prop}
    (node : ∀ n, (∀ c ∈ n.children, motive c) → motive n) (n : Node) : motive n :=
  node n fun c _ => induction_children node c
termination_by n
decreasing_by
  have hc : sizeOf c < sizeOf n.children := List.sizeOf_lt_of_mem ‹_›
  obtain ⟨label, isGoal, isErased, children⟩ := n
  simp only [mk.sizeOf_spec]
  dsimp only at hc
  omega

theorem pathsIn_append (ns ms : List Node) : pathsIn (ns ++ ms) = pathsIn ns ++ pathsIn ms := by
  induction ns with
  | nil => rfl
  | cons n ns ih => simp [pathsIn, ih]

theorem mem_pathsIn {path : List Step} {ns : List Node} :
    path ∈ pathsIn ns ↔ ∃ n ∈ ns, path ∈ n.paths := by
  induction ns with
  | nil => simp [pathsIn]
  | cons n ns ih => simp [pathsIn, ih]

theorem mem_paths {path : List Step} {n : Node} :
    path ∈ n.paths ↔ (n.isGoal = true ∧ path = n.label.toList) ∨
      ∃ c ∈ n.children, ∃ rest ∈ c.paths, path = n.label.toList ++ rest := by
  obtain ⟨label, isGoal, isErased, children⟩ := n
  simp only [paths, List.mem_map, List.mem_append, mem_pathsIn]
  constructor
  · intro h
    obtain ⟨rest, hg | ⟨c, hc, hr⟩, rfl⟩ := h
    · cases isGoal <;> simp_all
    · exact Or.inr ⟨c, hc, rest, hr, rfl⟩
  · intro h
    rcases h with ⟨rfl, rfl⟩ | ⟨c, hc, rest, hr, rfl⟩
    · exact ⟨[], by simp⟩
    · exact ⟨rest, Or.inr ⟨c, hc, hr⟩, rfl⟩

theorem mem_paths_iff_at {path : List Step} {n : Node} :
    path ∈ n.paths ↔ ∃ m, n.At path m ∧ m.isGoal = true := by
  constructor
  · intro hp
    induction n using induction_children generalizing path with
    | node n ih =>
      rcases mem_paths.mp hp with ⟨hg, rfl⟩ | ⟨c, hc, rest, hr, rfl⟩
      · exact ⟨n, .self, hg⟩
      · obtain ⟨m, hm, hg⟩ := ih c hc hr
        exact ⟨m, .child hc hm, hg⟩
  · intro h
    obtain ⟨m, hm, hg⟩ := h
    induction hm with
    | self => exact mem_paths.mpr (Or.inl ⟨hg, rfl⟩)
    | child hc _ ih => exact mem_paths.mpr (Or.inr ⟨_, hc, _, ih hg, rfl⟩)

theorem anyReachesGoal_iff {ns : List Node} :
    anyReachesGoal ns = true ↔ ∃ n ∈ ns, n.reachesGoal = true := by
  induction ns with
  | nil => simp [anyReachesGoal]
  | cons n ns ih => simp [anyReachesGoal, ih]

theorem reachesGoal_iff {n : Node} : n.reachesGoal = true ↔ ∃ path, path ∈ n.paths := by
  induction n using induction_children with
  | node n ih =>
    have hn : n.reachesGoal = true ↔ n.isGoal = true ∨ ∃ c ∈ n.children, c.reachesGoal = true := by
      obtain ⟨label, isGoal, isErased, children⟩ := n
      simp [reachesGoal, anyReachesGoal_iff]
    rw [hn]
    constructor
    · intro h
      rcases h with hg | ⟨c, hc, hr⟩
      · exact ⟨_, mem_paths.mpr (Or.inl ⟨hg, rfl⟩)⟩
      · obtain ⟨path, hp⟩ := (ih c hc).mp hr
        exact ⟨_, mem_paths.mpr (Or.inr ⟨c, hc, path, hp, rfl⟩)⟩
    · intro h
      obtain ⟨path, hp⟩ := h
      rcases mem_paths.mp hp with ⟨hg, -⟩ | ⟨c, hc, rest, hr, -⟩
      · exact Or.inl hg
      · exact Or.inr ⟨c, hc, (ih c hc).mpr ⟨rest, hr⟩⟩

theorem shortest?_eq_none {α : Type} {ls : List (List α)} : shortest? ls = none ↔ ls = [] := by
  cases ls with
  | nil => simp [shortest?]
  | cons l ls =>
    simp only [shortest?]
    split
    · split <;> simp
    · simp

/-- Lists before the answer are longer, and none after it is shorter. -/
theorem shortest?_eq_some {α : Type} {ls : List (List α)} {r : List α} (h : shortest? ls = some r) :
    ∃ before after, ls = before ++ r :: after ∧ (∀ l ∈ before, r.length < l.length) ∧
      ∀ l ∈ after, r.length ≤ l.length := by
  induction ls generalizing r with
  | nil => simp [shortest?] at h
  | cons l ls ih =>
    cases hs : shortest? ls with
    | none =>
      have hls : ls = [] := shortest?_eq_none.mp hs
      have hr : l = r := by simpa [shortest?, hs] using h
      subst hls hr
      exact ⟨[], [], rfl, by simp, by simp⟩
    | some t =>
      obtain ⟨before, after, rfl, hb, ha⟩ := ih hs
      simp only [shortest?, hs] at h
      split at h
      · have hr : t = r := Option.some.inj h
        subst hr
        refine ⟨l :: before, after, rfl, ?_, ha⟩
        simpa using ⟨‹_›, hb⟩
      · have hr : l = r := Option.some.inj h
        subst hr
        have hlt : l.length ≤ t.length := Nat.le_of_not_lt ‹_›
        refine ⟨[], before ++ t :: after, rfl, by simp, ?_⟩
        intro x hx
        rcases List.mem_append.mp hx with hx | hx
        · exact Nat.le_trans hlt (Nat.le_of_lt (hb x hx))
        · rcases List.mem_cons.mp hx with rfl | hx
          · exact hlt
          · exact Nat.le_trans hlt (ha x hx)

theorem shortest?_eq_some_iff {α : Type} {ls : List (List α)} {r : List α} :
    shortest? ls = some r ↔ ∃ before after, ls = before ++ r :: after ∧
      (∀ l ∈ before, r.length < l.length) ∧ ∀ l ∈ after, r.length ≤ l.length := by
  constructor
  · exact shortest?_eq_some
  · intro h
    obtain ⟨before, after, rfl, hbefore, hafter⟩ := h
    induction before with
    | nil =>
      rw [List.nil_append, shortest?]
      cases hs : shortest? after with
      | none => rfl
      | some t =>
        obtain ⟨front, back, hsplit, -, -⟩ := shortest?_eq_some hs
        have hle : r.length ≤ t.length := hafter t (by simp [hsplit])
        exact if_neg (Nat.not_lt.mpr hle)
    | cons l before ih =>
      have hs : shortest? (before ++ r :: after) = some r :=
        ih fun x hx => hbefore x (List.mem_cons_of_mem l hx)
      rw [List.cons_append, shortest?, hs]
      exact if_pos (hbefore l List.mem_cons_self)

theorem exists_shortestPath? {n : Node} (h : n.reachesGoal = true) :
    ∃ path before after, n.shortestPath? = some path ∧ n.paths = before ++ path :: after ∧
      (∀ other ∈ before, path.length < other.length) ∧
      ∀ other ∈ n.paths, path.length ≤ other.length := by
  have hne : n.shortestPath? ≠ none := by
    intro hnone
    obtain ⟨found, hfound⟩ := reachesGoal_iff.mp h
    have hnil : n.paths = [] := shortest?_eq_none.mp hnone
    rw [hnil] at hfound
    cases hfound
  obtain ⟨path, hpath⟩ := Option.ne_none_iff_exists'.mp hne
  obtain ⟨before, after, hsplit, hbefore, hafter⟩ := shortest?_eq_some hpath
  refine ⟨path, before, after, hpath, hsplit, hbefore, ?_⟩
  intro other hother
  rw [hsplit, List.mem_append, List.mem_cons] at hother
  rcases hother with hother | hother | hother
  · exact Nat.le_of_lt (hbefore other hother)
  · subst hother
    exact Nat.le_refl _
  · exact hafter other hother

end AffineSearch.Node
