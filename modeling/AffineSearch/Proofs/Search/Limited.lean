import AffineSearch.Proofs.Search.Recorded

/-! Searches that differ in where they stop. The paths of the one that stops first are the first paths
of the other. -/
namespace AffineSearch

/-- The counts that decide where a search stops. -/
def Progress.SameCounts (st st' : Progress) : Prop :=
  st.tally.created = st'.tally.created ∧ st.tally.reached = st'.tally.reached

namespace Progress.SameCounts
variable {st st' st'' : Progress}

theorem refl (st : Progress) : st.SameCounts st := ⟨rfl, rfl⟩

theorem symm (h : st.SameCounts st') : st'.SameCounts st := ⟨h.1.symm, h.2.symm⟩

theorem trans (h : st.SameCounts st') (h' : st'.SameCounts st'') : st.SameCounts st'' :=
  ⟨h.1.trans h'.1, h.2.trans h'.2⟩

theorem advance (h : st.SameCounts st') : st.advance.SameCounts st'.advance :=
  ⟨congrArg (· + 1) h.1, h.2⟩

theorem reach (h : st.SameCounts st') (step : Step) (depth : Nat) :
    (st.reach step depth).SameCounts (st'.reach step depth) :=
  ⟨congrArg (· + 1) h.1, congrArg (· + 1) h.2⟩

theorem halt (s : Search) (st : Progress) : (s.halt st).SameCounts st := by
  unfold Search.halt Progress.exhaust
  repeat' split
  all_goals exact ⟨rfl, rfl⟩

theorem settle (r : List Node × Progress) : (Search.settle r).2.SameCounts r.2 := by
  obtain ⟨_ | ⟨n, below⟩, st⟩ := r <;> exact ⟨rfl, rfl⟩

theorem isDone_eq (h : st.SameCounts st') (s : Search) : s.isDone st.tally = s.isDone st'.tally := by
  simp only [Search.isDone, Search.hasEnough, Search.spentBudget?, h.1, h.2]

end Progress.SameCounts

namespace Search
open Progress

/-- `a` differs from `b` only in that it may stop where `b` goes on. -/
structure Tightens (a b : Search) : Prop where
  goal_eq : a.goal = b.goal
  maxDepth_eq : a.limits.maxDepth = b.limits.maxDepth
  isDone_of : ∀ t, b.isDone t = true → a.isDone t = true

/-- Either nothing has told the two results apart, or `a` has stopped where `b` went on. -/
def Trails (a b : Search) (r r' : List Node × Progress) : Prop :=
  (r.1 = r'.1 ∧ r.2.SameCounts r'.2) ∨
    (a.isDone r.2.tally = true ∧ b.isDone r.2.tally = false ∧ Node.pathsIn r.1 <+: Node.pathsIn r'.1)

namespace Trails
variable {a b : Search} {r r' : List Node × Progress}

theorem initial_pathsIn (h : Trails a b r r') : Node.pathsIn r.1 <+: Node.pathsIn r'.1 := by
  rcases h with ⟨heq, -⟩ | ⟨-, -, hp⟩
  · exact heq ▸ List.prefix_refl _
  · exact hp

theorem append (h : Trails a b r r') (nodes : List Node) :
    Trails a b (nodes ++ r.1, r.2) (nodes ++ r'.1, r'.2) := by
  rcases h with ⟨heq, hc⟩ | ⟨ha, hb, hp⟩
  · exact Or.inl ⟨congrArg (nodes ++ ·) heq, hc⟩
  · refine Or.inr ⟨ha, hb, ?_⟩
    rw [Node.pathsIn_append, Node.pathsIn_append]
    exact (List.prefix_append_right_inj _).mpr hp

theorem settle (h : Trails a b r r') : Trails a b (settle r) (settle r') := by
  have hr := SameCounts.settle r
  have hr' := SameCounts.settle r'
  rcases h with ⟨heq, hc⟩ | ⟨ha, hb, hp⟩
  · exact Or.inl ⟨by rw [settle_fst, settle_fst, heq], (hr.trans hc).trans hr'.symm⟩
  · refine Or.inr ⟨?_, ?_, ?_⟩
    · rwa [hr.isDone_eq]
    · rwa [hr.isDone_eq]
    · rwa [settle_fst, settle_fst]

end Trails

theorem tryEach_sameCounts_of_isDone {s : Search} (descend : Pattern → Progress → List Node × Progress)
    (p : Pattern) (depth : Nat) (steps : List Step) {st : Progress} (h : s.isDone st.tally = true) :
    (s.tryEach descend p depth steps st).1 = [] ∧
      (s.tryEach descend p depth steps st).2.SameCounts st := by
  cases steps with
  | nil => exact ⟨rfl, .refl st⟩
  | cons step rest =>
    rw [tryEach_of_isDone h]
    exact ⟨rfl, .halt s st⟩

theorem Tightens.isDone_eq_false {a b : Search} (h : Tightens a b) {t : Tally}
    (ha : a.isDone t = false) : b.isDone t = false := by
  by_contra hb
  have hdone := h.isDone_of t (Bool.not_eq_false _ ▸ hb)
  rw [ha] at hdone
  cases hdone

section
variable {a b : Search} {st st' : Progress} {da db : Pattern → Progress → List Node × Progress}

theorem tryEach_trails_of_isDone (p : Pattern) (depth : Nat) (step : Step) (rest : List Step)
    (hc : st.SameCounts st') (ha : a.isDone st.tally = true) :
    Trails a b (a.tryEach da p depth (step :: rest) st) (b.tryEach db p depth (step :: rest) st') := by
  have hst := SameCounts.halt a st
  rw [tryEach_of_isDone ha]
  cases hb : b.isDone st'.tally with
  | true =>
    rw [tryEach_of_isDone hb]
    have hst' := SameCounts.halt b st'
    exact Or.inl ⟨rfl, (hst.trans hc).trans hst'.symm⟩
  | false =>
    refine Or.inr ⟨?_, ?_, List.nil_prefix⟩
    · rwa [hst.isDone_eq]
    · rwa [(hst.trans hc).isDone_eq]

theorem tryEach_trails (h : Tightens a b)
    (hd : ∀ q st st', st.SameCounts st' → Trails a b (da q st) (db q st'))
    (p : Pattern) (depth : Nat) (steps : List Step) (hc : st.SameCounts st') :
    Trails a b (a.tryEach da p depth steps st) (b.tryEach db p depth steps st') := by
  induction steps generalizing st st' with
  | nil => exact Or.inl ⟨rfl, hc⟩
  | cons step rest ih =>
    cases ha : a.isDone st.tally with
    | true => exact tryEach_trails_of_isDone p depth step rest hc ha
    | false =>
      have hb : b.isDone st'.tally = false := by
        rw [← hc.isDone_eq]
        exact h.isDone_eq_false ha
      cases hs : step.perform? p with
      | none =>
        rw [tryEach_of_none ha hs, tryEach_of_none hb hs]
        exact ih hc
      | some q =>
        by_cases hq : q = b.goal
        · subst hq
          rw [tryEach_of_goal ha (h.goal_eq ▸ hs), tryEach_of_goal hb hs]
          exact (ih (hc.reach step (depth + 1))).append [_]
        · rw [tryEach_of_ne_goal ha hs (h.goal_eq ▸ hq), tryEach_of_ne_goal hb hs hq]
          rcases hd q _ _ hc.advance with ⟨hn, hcb⟩ | ⟨hda, hdb, hp⟩
          · rw [hn]
            exact (ih hcb).append _
          -- Once `a` has stopped it leaves every loop that it is in.
          · obtain ⟨hnil, hcr⟩ := tryEach_sameCounts_of_isDone da p depth rest hda
            refine Or.inr ⟨?_, ?_, ?_⟩
            · rwa [hcr.isDone_eq]
            · rwa [hcr.isDone_eq]
            · rw [hnil, List.append_nil, Node.pathsIn_append, Node.pathsIn_kept, Node.pathsIn_kept]
              exact (hp.map _).trans (List.prefix_append _ _)

theorem explore_trails (h : Tightens a b) (levels depth : Nat) (p : Pattern)
    (hc : st.SameCounts st') :
    Trails a b (a.explore levels depth p st) (b.explore levels depth p st') := by
  induction levels generalizing depth p st st' with
  | zero => exact Or.inl ⟨rfl, hc⟩
  | succ levels ih =>
    rw [explore_succ, explore_succ, h.goal_eq]
    have hd := fun q st st' (hc : Progress.SameCounts st st') => ih (depth + 1) q hc
    exact (tryEach_trails h hd p depth _ hc).settle

end

theorem descent_trails {a b : Search} (h : Tightens a b) (source : Pattern) :
    Trails a b (a.descent source) (b.descent source) := by
  unfold descent
  rw [h.maxDepth_eq]
  apply explore_trails h
  exact ⟨rfl, rfl⟩

theorem initial_run_paths {a b : Search} (h : Tightens a b) (source : Pattern) :
    (a.run source).root.paths <+: (b.run source).root.paths := by
  by_cases hs : source = b.goal
  · have hpaths := (run_paths_of_eq (hs.trans h.goal_eq.symm)).trans (run_paths_of_eq hs).symm
    exact hpaths ▸ List.prefix_refl _
  · rw [run_paths_of_ne hs, run_paths_of_ne (h.goal_eq ▸ hs)]
    exact (descent_trails h source).initial_pathsIn

theorem explore_reached (s : Search) (levels depth : Nat) (p : Pattern) (st : Progress) :
    (s.explore levels depth p st).2.tally.reached =
      st.tally.reached + (Node.pathsIn (s.explore levels depth p st).1).length := by
  refine explore_induction
    (fun _ _ _ _ st r => r.2.tally.reached = st.tally.reached + (Node.pathsIn r.1).length)
    (fun _ _ _ st r => r.2.tally.reached = st.tally.reached + (Node.pathsIn r.1).length)
    ?limit ?settled ?nil ?halted ?rejected ?reached ?descended levels depth p st
  case limit => exact fun _ _ _ => rfl
  case settled =>
    intro levels depth p st r h
    rw [settle_fst, (SameCounts.settle r).2, h]
  case nil => exact fun _ _ _ _ => rfl
  case halted =>
    intro levels depth p step rest st _
    exact (SameCounts.halt s st).2
  case rejected => exact fun _ _ _ _ _ _ _ _ _ h => h
  case reached =>
    intro levels depth p step rest st r _ _ h
    have hone : (st.reach step (depth + 1)).tally.reached = st.tally.reached + 1 := rfl
    rw [h, hone]
    simp only [Node.pathsIn, Node.paths, List.length_append, List.length_map]
    simp only [if_pos, List.length_cons, List.length_nil]
    omega
  case descended =>
    intro levels depth p q step rest st b r _ _ _ hb h
    have hadv : st.advance.tally.reached = st.tally.reached := rfl
    rw [h, hb, hadv, Node.pathsIn_append, Node.pathsIn_kept, List.length_append, List.length_map]
    omega

theorem explore_reached_le_one {s : Search} (hf : s.limits.firstMatch = true)
    (levels depth : Nat) (p : Pattern) (st : Progress) (hst : st.tally.reached ≤ 1) :
    (s.explore levels depth p st).2.tally.reached ≤ 1 := by
  refine explore_induction
    (fun _ _ _ _ st r => st.tally.reached ≤ 1 → r.2.tally.reached ≤ 1)
    (fun _ _ _ st r => st.tally.reached ≤ 1 → r.2.tally.reached ≤ 1)
    ?limit ?settled ?nil ?halted ?rejected ?reached ?descended levels depth p st hst
  case limit => exact fun _ _ _ h => h
  case settled =>
    intro levels depth p st r h hst
    rw [(SameCounts.settle r).2]
    exact h hst
  case nil => exact fun _ _ _ _ h => h
  case halted =>
    intro levels depth p step rest st _ hst
    exact (SameCounts.halt s st).2 ▸ hst
  case rejected => exact fun _ _ _ _ _ _ _ _ _ h hst => h hst
  -- A second match would be taken up only where the first one did not count.
  case reached =>
    intro levels depth p step rest st r hd _ h _
    have he : s.hasEnough st.tally = false := (isDone_eq_false_iff.mp hd).1
    have hzero : st.tally.reached = 0 := by simpa [hasEnough, hf] using he
    apply h
    have hone : (st.reach step (depth + 1)).tally.reached = st.tally.reached + 1 := rfl
    omega
  case descended => exact fun _ _ _ _ _ _ _ _ _ _ _ _ hb h hst => h (hb hst)

theorem tightens_of_budget_le {goal : Pattern} {l l' : Limits} (hd : l.maxDepth = l'.maxDepth)
    (hf : l.firstMatch = l'.firstMatch) (hn : ∀ m' ∈ l'.maxNodes, ∃ m ∈ l.maxNodes, m ≤ m') :
    Tightens ⟨goal, l⟩ ⟨goal, l'⟩ := by
  refine ⟨rfl, hd, ?_⟩
  intro t ht
  simp only [isDone, hasEnough, spentBudget?, Bool.or_eq_true, hf] at ht ⊢
  rcases ht with he | hb
  · exact Or.inl he
  · obtain ⟨m', hm'⟩ := Option.isSome_iff_exists.mp hb
    obtain ⟨hmem, hle⟩ := Option.filter_eq_some_iff.mp hm'
    obtain ⟨m, hm, hmm⟩ := hn m' hmem
    have hspent : m ≤ t.created := Nat.le_trans hmm (by simpa using hle)
    have hl : l.maxNodes = some m := hm
    exact Or.inr (by simp [hl, hspent])

theorem tightens_of_firstMatch {goal : Pattern} {maxDepth : Nat} {maxNodes : Option Nat} :
    Tightens ⟨goal, { maxDepth, maxNodes, firstMatch := true }⟩
      ⟨goal, { maxDepth, maxNodes, firstMatch := false }⟩ := by
  refine ⟨rfl, rfl, ?_⟩
  intro t ht
  have hb : ((Search.mk goal { maxDepth, maxNodes, firstMatch := false }).spentBudget? t).isSome := by
    simpa [isDone, hasEnough] using ht
  simp only [isDone, Bool.or_eq_true]
  exact Or.inr hb

/-- Where `a` stops and `b` goes on, `a` has found what it wants. -/
theorem descent_paths_take_one {a b : Search} (h : Tightens a b) (hf : a.limits.firstMatch = true)
    (hstop : ∀ t, a.isDone t = true → b.isDone t = false → 0 < t.reached) (source : Pattern) :
    Node.pathsIn (a.descent source).1 = (Node.pathsIn (b.descent source).1).take 1 := by
  have hcount : (a.descent source).2.tally.reached = (Node.pathsIn (a.descent source).1).length :=
    (explore_reached a _ _ _ _).trans (Nat.zero_add _)
  have hone : (a.descent source).2.tally.reached ≤ 1 :=
    explore_reached_le_one hf _ _ _ _ (Nat.zero_le 1)
  rcases descent_trails h source with ⟨heq, -⟩ | ⟨ha, hb, hp⟩
  · rw [← heq, List.take_of_length_le (by omega)]
  · have hpos := hstop _ ha hb
    have hlen : (Node.pathsIn (a.descent source).1).length = 1 := by omega
    rw [← hlen]
    exact List.prefix_iff_eq_take.mp hp

theorem run_paths_firstMatch (goal source : Pattern) (maxDepth : Nat) (maxNodes : Option Nat) :
    ((Search.mk goal { maxDepth, maxNodes, firstMatch := true }).run source).root.paths =
      ((Search.mk goal { maxDepth, maxNodes, firstMatch := false }).run source).root.paths.take 1 := by
  by_cases hs : source = goal
  · rw [run_paths_of_eq hs, run_paths_of_eq hs]
    rfl
  · rw [run_paths_of_ne hs, run_paths_of_ne hs]
    apply descent_paths_take_one tightens_of_firstMatch rfl
    intro t ha hb
    obtain ⟨-, hbudget⟩ := isDone_eq_false_iff.mp hb
    have hspent : (Search.mk goal { maxDepth, maxNodes, firstMatch := true }).spentBudget? t = none :=
      hbudget
    simpa [isDone, hspent, hasEnough] using ha

/-- A smaller budget keeps the first paths, and the wish for one match keeps the first of them. -/
theorem run_paths_limited (goal source : Pattern) (maxDepth : Nat) :
    let tree (firstMatch : Bool) (maxNodes : Option Nat) : Node :=
      ((Search.mk goal { maxDepth, maxNodes, firstMatch }).run source).root
    (∀ m m', m ≤ m' → (tree false (some m)).paths <+: (tree false (some m')).paths) ∧
      (∀ m, (tree false (some m)).paths <+: (tree false none).paths) ∧
      ∀ maxNodes, (tree true maxNodes).paths = (tree false maxNodes).paths.take 1 ∧
        (tree true maxNodes).reachesGoal = (tree false maxNodes).reachesGoal ∧
        (tree true maxNodes).firstPath? = (tree false maxNodes).firstPath? := by
  intro tree
  refine ⟨?_, ?_, ?_⟩
  · intro m m' hm
    have htight : Tightens ⟨goal, { maxDepth, maxNodes := some m, firstMatch := false }⟩
        ⟨goal, { maxDepth, maxNodes := some m', firstMatch := false }⟩ :=
      tightens_of_budget_le rfl rfl (by simpa using hm)
    exact initial_run_paths htight source
  · intro m
    have htight : Tightens ⟨goal, { maxDepth, maxNodes := some m, firstMatch := false }⟩
        ⟨goal, { maxDepth, maxNodes := none, firstMatch := false }⟩ :=
      tightens_of_budget_le rfl rfl (by simp)
    exact initial_run_paths htight source
  · intro maxNodes
    have htake : (tree true maxNodes).paths = (tree false maxNodes).paths.take 1 :=
      run_paths_firstMatch goal source maxDepth maxNodes
    refine ⟨htake, ?_, ?_⟩
    · rw [Bool.eq_iff_iff, Node.reachesGoal_iff, Node.reachesGoal_iff, htake]
      cases (tree false maxNodes).paths <;> simp
    · unfold Node.firstPath?
      rw [htake]
      cases (tree false maxNodes).paths <;> rfl

theorem run_paths_limited_rotation :
    let tree (maxNodes : Nat) : Node := ((Search.mk (.transposed [2, 0, 1])
      { maxDepth := 2, maxNodes := some maxNodes, firstMatch := false }).run (.transposed [0, 1, 2])).root
    5 ≤ 9 ∧ (tree 5).paths <+: (tree 9).paths ∧
      (tree 5).paths = [[.permute 0 1 (.full 1), .permute 0 2 (.full 1)]] ∧ (tree 9).paths.length = 2 := by
  refine ⟨by decide, ?_, by decide +kernel, by decide +kernel⟩
  exact (run_paths_limited _ _ _).1 5 9 (by decide)

end Search
end AffineSearch
