import AffineSearch.Proofs.Search.Limited

/-! The counts of a search agree with its tree: each node made is in the tree or was given up. -/
namespace AffineSearch

/-- What the counts have gone up by between two moments. Of `owed` nodes from before and those made since,
`kept` are left and the others were given up. -/
structure Progress.Accounts (owed kept : Nat) (st st' : Progress) : Prop where
  created_eq : st'.tally.created + st.tally.applied = st.tally.created + st'.tally.applied
  applied_le : st'.tally.applied + st.tally.tried ≤ st.tally.applied + st'.tally.tried
  kept_eq : st'.tally.created + st.tally.pruned + owed = st.tally.created + st'.tally.pruned + kept

namespace Progress.Accounts
variable {owed owed' kept kept' : Nat} {st st' st'' : Progress}

theorem refl (st : Progress) : Accounts 0 0 st st := ⟨rfl, Nat.le_refl _, rfl⟩

theorem trans (h : Accounts owed kept st st') (h' : Accounts owed' kept' st' st'') :
    Accounts (owed + owed') (kept + kept') st st'' where
  created_eq := by
    have heq := h.created_eq
    have heq' := h'.created_eq
    omega
  applied_le := by
    have hle := h.applied_le
    have hle' := h'.applied_le
    omega
  kept_eq := by
    have heq := h.kept_eq
    have heq' := h'.kept_eq
    omega

/-- A node that was owed and is left need not be mentioned. -/
theorem add_one_iff : Accounts (owed + 1) (kept + 1) st st' ↔ Accounts owed kept st st' := by
  constructor
  all_goals
    rintro ⟨hcreated, happlied, hkept⟩
    exact ⟨hcreated, happlied, by omega⟩

theorem advance (st : Progress) : Accounts 0 1 st st.advance where
  created_eq := by simp only [Progress.advance]; omega
  applied_le := by simp only [Progress.advance]; omega
  kept_eq := by simp only [Progress.advance]; omega

theorem reach (st : Progress) (step : Step) (depth : Nat) : Accounts 0 1 st (st.reach step depth) :=
  ⟨(advance st).created_eq, (advance st).applied_le, (advance st).kept_eq⟩

theorem reject (st : Progress) (step : Step) (depth : Nat) : Accounts 0 0 st (st.reject step depth) where
  created_eq := rfl
  applied_le := by simp only [Progress.reject]; omega
  kept_eq := rfl

theorem giveUp (st : Progress) : Accounts 1 0 st st.giveUp where
  created_eq := rfl
  applied_le := Nat.le_refl _
  kept_eq := by simp only [Progress.giveUp]; omega

theorem halt (s : Search) (st : Progress) : Accounts 0 0 st (s.halt st) := by
  unfold Search.halt Progress.exhaust
  repeat' split
  all_goals exact ⟨rfl, Nat.le_refl _, rfl⟩

end Progress.Accounts

namespace Search
open Progress

/-- The node at which an exploration starts is owed, and is left where something is found below it. -/
theorem explore_accounts (s : Search) (levels depth : Nat) (p : Pattern) (st : Progress) :
    Accounts 1 (Node.numNodesIn (s.explore levels depth p st).1 +
      if (s.explore levels depth p st).1.isEmpty then 0 else 1) st (s.explore levels depth p st).2 := by
  refine explore_induction
    (fun _ _ _ _ st r => Accounts 0 (Node.numNodesIn r.1) st r.2)
    (fun _ _ _ st r => Accounts 1 (Node.numNodesIn r.1 + if r.1.isEmpty then 0 else 1) st r.2)
    ?limit ?settled ?nil ?halted ?rejected ?reached ?descended levels depth p st
  case limit =>
    intro depth p st
    have hnote : Accounts 0 0 st (st.note (.depthLimit depth)) := ⟨rfl, Nat.le_refl _, rfl⟩
    exact hnote.trans (.giveUp _)
  case settled =>
    intro levels depth p st r h
    obtain ⟨_ | ⟨n, below⟩, st'⟩ := r
    · exact h.trans (.giveUp st')
    · exact Accounts.add_one_iff.mpr h
  case nil => exact fun _ _ _ st => .refl st
  case halted => exact fun _ _ _ _ _ st _ => .halt s st
  case rejected =>
    intro levels depth p step rest st r _ _ h
    have htrans := (Accounts.reject st step depth).trans h
    rwa [Nat.zero_add, Nat.zero_add] at htrans
  case reached =>
    intro levels depth p step rest st r _ _ h
    exact (Accounts.reach st step (depth + 1)).trans h
  case descended =>
    intro levels depth p q step rest st b r _ _ _ hb h
    have hmade := (Accounts.advance st).trans hb
    rw [Nat.add_comm 1 (_ + _), Accounts.add_one_iff, ← Node.numNodesIn_kept step] at hmade
    rw [Node.numNodesIn_append]
    exact hmade.trans h

theorem descent_accounts (s : Search) (source : Pattern) :
    (s.descent source).2.tally.created = 1 + (s.descent source).2.tally.applied ∧
      (s.descent source).2.tally.applied ≤ (s.descent source).2.tally.tried ∧
      (s.descent source).2.tally.created = Node.numNodesIn (s.descent source).1 +
        (if (s.descent source).1.isEmpty then 0 else 1) + (s.descent source).2.tally.pruned := by
  have haccounts := s.explore_accounts s.limits.maxDepth 0 source
    ⟨{ created := 1 }, #[.started source s.goal s.limits.maxDepth]⟩
  obtain ⟨hcreated, happlied, hkept⟩ := haccounts
  change (s.descent source).2.tally.created + 0 = 1 + (s.descent source).2.tally.applied at hcreated
  change (s.descent source).2.tally.applied + 0 ≤ 0 + (s.descent source).2.tally.tried at happlied
  change (s.descent source).2.tally.created + 0 + 1 = 1 + (s.descent source).2.tally.pruned +
    (Node.numNodesIn (s.descent source).1 + if (s.descent source).1.isEmpty then 0 else 1) at hkept
  omega

section
variable {s : Search} {source : Pattern}

theorem run_created_of_reachesGoal (h : (s.run source).root.reachesGoal = true) :
    (s.run source).tally.created = (s.run source).root.numNodes + (s.run source).tally.pruned := by
  by_cases hs : source = s.goal
  · rw [run_of_eq hs]
    rfl
  · rcases run_root_cases hs with ⟨-, -, hnone⟩ | ⟨hne, hroot, -⟩
    · rw [hnone] at h
      cases h
    · obtain ⟨-, -, hkept⟩ := s.descent_accounts source
      rw [if_neg (by simpa using hne)] at hkept
      rw [hroot, run_of_ne hs, Node.numNodes]
      dsimp only
      omega

theorem run_created_of_not_reachesGoal (h : (s.run source).root.reachesGoal = false) :
    (s.run source).tally.created = (s.run source).tally.pruned ∧ (s.run source).root.numNodes = 1 := by
  by_cases hs : source = s.goal
  · rw [run_of_eq hs] at h
    cases h
  · rcases run_root_cases hs with ⟨hnil, hroot, -⟩ | ⟨-, -, hfound⟩
    · obtain ⟨-, -, hkept⟩ := s.descent_accounts source
      rw [hnil] at hkept
      rw [hroot, run_of_ne hs]
      exact ⟨hkept.trans (Nat.zero_add _), rfl⟩
    · rw [hfound] at h
      cases h

theorem run_reached_eq_numGoals (s : Search) (source : Pattern) :
    (s.run source).tally.reached = (s.run source).root.numGoals := by
  by_cases hs : source = s.goal
  · rw [run_of_eq hs]
    rfl
  · have hreached : (s.descent source).2.tally.reached = (Node.pathsIn (s.descent source).1).length :=
      (explore_reached s _ _ _ _).trans (Nat.zero_add _)
    rw [← Node.length_paths, run_paths_of_ne hs, ← hreached, run_of_ne hs]

end

/-- Every node made is in the tree or was given up, and every match that was counted is still in the tree.
Where nothing is found, all nodes were given up. -/
theorem run_tally_accounts (s : Search) (source : Pattern) :
    let tally := (s.run source).tally
    let root := (s.run source).root
    tally.created = 1 + tally.applied ∧ tally.applied ≤ tally.tried ∧
      tally.reached = root.numGoals ∧ root.numGoals = root.paths.length ∧
      (root.reachesGoal = true → tally.created = root.numNodes + tally.pruned) ∧
      (root.reachesGoal = false → tally.created = tally.pruned ∧ root.numNodes = 1) := by
  intro tally root
  have happlied : tally.created = 1 + tally.applied ∧ tally.applied ≤ tally.tried := by
    by_cases hs : source = s.goal
    · simp only [tally, run_of_eq hs]
      decide
    · obtain ⟨hcreated, hle, -⟩ := s.descent_accounts source
      simp only [tally, run_of_ne hs]
      exact ⟨hcreated, hle⟩
  exact ⟨happlied.1, happlied.2, s.run_reached_eq_numGoals source, (Node.length_paths root).symm,
    run_created_of_reachesGoal, run_created_of_not_reachesGoal⟩

/-- One step does not rotate three results. Two steps do, in three ways, and six nodes on no such way are
given up. -/
theorem run_tally_accounts_rotation :
    let outcome (maxDepth : Nat) : Outcome :=
      (Search.mk (.transposed [2, 0, 1]) { maxDepth }).run (.transposed [0, 1, 2])
    ((outcome 2).root.reachesGoal = true ∧
        (outcome 2).tally.created = (outcome 2).root.numNodes + (outcome 2).tally.pruned) ∧
      (outcome 1).root.reachesGoal = false ∧
        (outcome 1).tally.created = (outcome 1).tally.pruned ∧ (outcome 1).root.numNodes = 1 := by
  intro outcome
  have hfound : (outcome 2).root.reachesGoal = true := by decide +kernel
  have hnone : (outcome 1).root.reachesGoal = false := by decide +kernel
  obtain ⟨-, -, -, -, hkept, -⟩ := run_tally_accounts ⟨.transposed [2, 0, 1], { maxDepth := 2 }⟩ _
  obtain ⟨-, -, -, -, -, hpruned⟩ := run_tally_accounts ⟨.transposed [2, 0, 1], { maxDepth := 1 }⟩ _
  exact ⟨⟨hfound, hkept hfound⟩, hnone, hpruned hnone⟩

end Search
end AffineSearch
