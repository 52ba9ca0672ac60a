import AffineSearch.Proofs.Search.Tally

/-! The node budget is exact. A search makes all the nodes it may unless it ends by itself, and then the
budget has changed nothing. -/
namespace AffineSearch

namespace Progress

/-- There are no more nodes than allowed, and no fewer where the budget is reported as spent. -/
structure WithinBudget (maxNodes : Nat) (st : Progress) : Prop where
  created_pos : 1 ≤ st.tally.created
  created_le : st.tally.created ≤ max 1 maxNodes
  le_created : st.tally.isSpent = true → maxNodes ≤ st.tally.created

/-- While nodes are left one more can be made. -/
theorem WithinBudget.succ {maxNodes : Nat} {st st' : Progress} (h : st.WithinBudget maxNodes)
    (hlt : st.tally.created < maxNodes) (hcreated : st'.tally.created = st.tally.created + 1)
    (hspent : st'.tally.isSpent = st.tally.isSpent) : st'.WithinBudget maxNodes where
  created_pos := by omega
  created_le := by omega
  le_created := by
    intro hs
    have hle := h.le_created (hspent ▸ hs)
    omega

end Progress

namespace Search
open Progress

section
variable {s : Search} {maxNodes : Nat} {st : Progress}

theorem created_lt_of_isDone_eq_false (hm : s.limits.maxNodes = some maxNodes) {t : Tally}
    (h : s.isDone t = false) : t.created < maxNodes := by
  have hbudget := (isDone_eq_false_iff.mp h).2
  simpa [spentBudget?, hm] using hbudget

/-- A search stops because it has enough, or it reports that the budget is spent. -/
theorem halt_cases (h : s.isDone st.tally = true) :
    (s.hasEnough st.tally = true ∧ s.halt st = st) ∨
      (∃ m ∈ s.limits.maxNodes, m ≤ st.tally.created) ∧ (s.halt st).tally.isSpent = true := by
  unfold halt
  cases he : s.hasEnough st.tally with
  | true => exact Or.inl ⟨rfl, rfl⟩
  | false =>
    cases hb : s.spentBudget? st.tally with
    | none => simp [isDone, he, hb] at h
    | some m =>
      obtain ⟨hm, hle⟩ := Option.filter_eq_some_iff.mp hb
      have hspent : (st.exhaust m).tally.isSpent = true := by
        unfold Progress.exhaust
        split
        · assumption
        · rfl
      exact Or.inr ⟨⟨m, hm, of_decide_eq_true hle⟩, hspent⟩

theorem withinBudget_halt (hm : s.limits.maxNodes = some maxNodes) (h : st.WithinBudget maxNodes)
    (hdone : s.isDone st.tally = true) : (s.halt st).WithinBudget maxNodes := by
  have hcreated := (SameCounts.halt s st).1
  rcases halt_cases hdone with ⟨-, heq⟩ | ⟨⟨m, hmem, hle⟩, -⟩
  · rwa [heq]
  · obtain rfl : maxNodes = m := Option.some.inj (hm.symm.trans hmem)
    exact ⟨hcreated ▸ h.created_pos, hcreated ▸ h.created_le, fun _ => hcreated ▸ hle⟩

theorem explore_withinBudget (hm : s.limits.maxNodes = some maxNodes) (levels depth : Nat) (p : Pattern)
    (h : st.WithinBudget maxNodes) : (s.explore levels depth p st).2.WithinBudget maxNodes := by
  refine explore_induction
    (fun _ _ _ _ st r => st.WithinBudget maxNodes → r.2.WithinBudget maxNodes)
    (fun _ _ _ st r => st.WithinBudget maxNodes → r.2.WithinBudget maxNodes)
    ?limit ?settled ?nil ?halted ?rejected ?reached ?descended levels depth p st h
  case limit => exact fun _ _ _ h => ⟨h.created_pos, h.created_le, h.le_created⟩
  case settled =>
    intro levels depth p st r h hst
    obtain ⟨_ | ⟨n, below⟩, st'⟩ := r
    · exact ⟨(h hst).created_pos, (h hst).created_le, (h hst).le_created⟩
    · exact h hst
  case nil => exact fun _ _ _ _ h => h
  case halted => exact fun _ _ _ _ _ _ hdone h => withinBudget_halt hm h hdone
  case rejected =>
    intro levels depth p step rest st r _ _ h hst
    exact h ⟨hst.created_pos, hst.created_le, hst.le_created⟩
  case reached =>
    intro levels depth p step rest st r hdone _ h hst
    exact h (hst.succ (created_lt_of_isDone_eq_false hm hdone) rfl rfl)
  case descended =>
    intro levels depth p q step rest st b r hdone _ _ hb h hst
    exact h (hb (hst.succ (created_lt_of_isDone_eq_false hm hdone) rfl rfl))

end

section
variable {a b : Search}

/-- A run that never reports its budget as spent has gone the way of one without a budget. Once reported,
that is not taken back. -/
theorem explore_eq_of_not_isSpent (h : Tightens a b) (hf : a.limits.firstMatch = b.limits.firstMatch)
    (levels depth : Nat) (p : Pattern) (st : Progress) :
    (st.tally.isSpent = true → (a.explore levels depth p st).2.tally.isSpent = true) ∧
      ((a.explore levels depth p st).2.tally.isSpent = false →
        b.explore levels depth p st = a.explore levels depth p st) := by
  refine explore_induction
    (fun levels depth p steps st r => (st.tally.isSpent = true → r.2.tally.isSpent = true) ∧
      (r.2.tally.isSpent = false → b.tryEach (b.explore levels (depth + 1)) p depth steps st = r))
    (fun levels depth p st r => (st.tally.isSpent = true → r.2.tally.isSpent = true) ∧
      (r.2.tally.isSpent = false → b.explore levels depth p st = r))
    ?limit ?settled ?nil ?halted ?rejected ?reached ?descended levels depth p st
  case limit => exact fun _ _ _ => ⟨fun h => h, fun _ => rfl⟩
  case settled =>
    intro levels depth p st r hr
    have hspent : (settle r).2.tally.isSpent = r.2.tally.isSpent := by
      obtain ⟨_ | ⟨n, below⟩, st'⟩ := r <;> rfl
    rw [hspent, explore_succ, ← h.goal_eq]
    exact ⟨hr.1, fun hs => congrArg settle (hr.2 hs)⟩
  case nil => exact fun _ _ _ _ => ⟨fun h => h, fun _ => rfl⟩
  case halted =>
    intro levels depth p step rest st hdone
    rcases halt_cases hdone with ⟨he, heq⟩ | ⟨-, hspent⟩
    · have heb : b.hasEnough st.tally = true := by
        simpa only [hasEnough, hf] using he
      have hb : b.isDone st.tally = true := by simp [isDone, heb]
      rw [heq, tryEach_of_isDone hb]
      refine ⟨fun h => h, fun _ => ?_⟩
      simp [halt, heb]
    · refine ⟨fun _ => hspent, fun hs => ?_⟩
      rw [hspent] at hs
      cases hs
  case rejected =>
    intro levels depth p step rest st r hdone hs hr
    refine ⟨hr.1, fun hspent => ?_⟩
    rw [tryEach_of_none (h.isDone_eq_false hdone) hs]
    exact hr.2 hspent
  case reached =>
    intro levels depth p step rest st r hdone hs hr
    refine ⟨hr.1, fun hspent => ?_⟩
    rw [tryEach_of_goal (h.isDone_eq_false hdone) (h.goal_eq ▸ hs), hr.2 hspent]
  case descended =>
    intro levels depth p q step rest st c r hdone hs hq hc hr
    refine ⟨fun hspent => hr.1 (hc.1 hspent), fun hspent => ?_⟩
    have hbelow : c.2.tally.isSpent = false := by
      by_contra hne
      have hrest := hr.1 (Bool.not_eq_false _ ▸ hne)
      rw [hspent] at hrest
      cases hrest
    rw [tryEach_of_ne_goal (h.isDone_eq_false hdone) hs (h.goal_eq ▸ hq), hc.2 hbelow, hr.2 hspent]

end

theorem descent_withinBudget {s : Search} {maxNodes : Nat} (hm : s.limits.maxNodes = some maxNodes)
    (source : Pattern) : (s.descent source).2.WithinBudget maxNodes :=
  explore_withinBudget hm _ _ _ ⟨Nat.le_refl 1, Nat.le_max_left 1 maxNodes, nofun⟩

theorem numNodes_run_le_created (s : Search) (source : Pattern) :
    (s.run source).root.numNodes ≤ max 1 (s.run source).tally.created := by
  cases h : (s.run source).root.reachesGoal with
  | true =>
    have hcreated := run_created_of_reachesGoal h
    omega
  | false =>
    have hone := (run_created_of_not_reachesGoal h).2
    omega

/-- No search makes more nodes than its budget allows, where the root is always allowed. One that stops short
of the budget is the search without any, and one that does not has made all of its nodes. -/
theorem run_budget_exact (goal source : Pattern) (maxDepth maxNodes : Nat) (firstMatch : Bool) :
    let outcome (maxNodes : Option Nat) : Outcome :=
      (Search.mk goal { maxDepth, maxNodes, firstMatch }).run source
    let bounded := outcome (some maxNodes)
    bounded.tally.created ≤ max 1 maxNodes ∧ bounded.root.numNodes ≤ max 1 maxNodes ∧
      (bounded.tally.isSpent = false → bounded = outcome none) ∧
      (bounded.tally.isSpent = true → bounded.tally.created = max 1 maxNodes) := by
  intro outcome bounded
  let a : Search := ⟨goal, { maxDepth, maxNodes := some maxNodes, firstMatch }⟩
  let b : Search := ⟨goal, { maxDepth, maxNodes := none, firstMatch }⟩
  have hnodes : bounded.root.numNodes ≤ max 1 bounded.tally.created := a.numNodes_run_le_created source
  by_cases hs : source = goal
  · have ha : bounded = _ := run_of_eq (s := a) hs
    have hb : outcome none = _ := run_of_eq (s := b) hs
    have hcreated : bounded.tally.created = 1 := by rw [ha]
    refine ⟨by omega, by omega, fun _ => ha.trans hb.symm, ?_⟩
    rw [ha]
    exact nofun
  · have ha : bounded = _ := run_of_ne (s := a) hs
    have hb : outcome none = _ := run_of_ne (s := b) hs
    have htally : bounded.tally = (a.descent source).2.tally := by rw [ha]
    obtain ⟨hpos, hle, hspent⟩ := descent_withinBudget (s := a) rfl source
    rw [← htally] at hpos hle hspent
    have htight : Tightens a b := tightens_of_budget_le rfl rfl (by simp)
    have heq := (explore_eq_of_not_isSpent htight rfl maxDepth 0 source
      ⟨{ created := 1 }, #[.started source goal maxDepth]⟩).2
    refine ⟨hle, by omega, ?_, ?_⟩
    · intro hfree
      have hdescent : b.descent source = a.descent source := heq (htally ▸ hfree)
      rw [ha, hb, hdescent]
    · intro hs
      have hge := hspent hs
      omega

/-- The first match takes four nodes. A budget of as many changes nothing, and one of three is spent. -/
theorem run_budget_exact_rotation :
    let outcome (maxNodes : Option Nat) : Outcome :=
      (Search.mk (.transposed [2, 0, 1]) { maxDepth := 2, maxNodes, firstMatch := true }).run
        (.transposed [0, 1, 2])
    ((outcome (some 4)).tally.isSpent = false ∧ outcome (some 4) = outcome none) ∧
      (outcome (some 3)).tally.isSpent = true ∧ (outcome (some 3)).tally.created = max 1 3 := by
  intro outcome
  have hfree : (outcome (some 4)).tally.isSpent = false := by decide +kernel
  have hspent : (outcome (some 3)).tally.isSpent = true := by decide +kernel
  obtain ⟨-, -, hsame, -⟩ := run_budget_exact (.transposed [2, 0, 1]) (.transposed [0, 1, 2]) 2 4 true
  obtain ⟨-, -, -, hall⟩ := run_budget_exact (.transposed [2, 0, 1]) (.transposed [0, 1, 2]) 2 3 true
  exact ⟨⟨hfree, hsame hfree⟩, hspent, hall hspent⟩

end Search
end AffineSearch
