import AffineSearch.Proofs.Search.Tally

/-! The report of a search agrees with its counts and with its tree. -/
namespace AffineSearch

namespace Event

/-- The step that led to the goal and the depth there. -/
def reached? : Event → Option (Step × Nat)
  | reachedGoal step depth => some (step, depth)
  | _ => none

/-- The budget that was spent. -/
def budget? : Event → Option Nat
  | budgetSpent maxNodes => some maxNodes
  | _ => none

def isRejection : Event → Bool
  | notApplicable _ _ => true
  | _ => false

end Event

/-- The counts are those of the reported events, of which none is the last one yet. -/
structure Progress.IsReported (s : Search) (st : Progress) : Prop where
  tried_eq : st.tally.tried = st.tally.applied + st.log.toList.countP Event.isRejection
  budget_eq : (st.log.toList.filterMap Event.budget?).map some =
    if st.tally.isSpent then [s.limits.maxNodes] else []
  depth_eq : ∀ depth, .depthLimit depth ∈ st.log.toList → depth = s.limits.maxDepth
  not_finished : ∀ t, .finished t ∉ st.log.toList

namespace Progress.IsReported
variable {s : Search} {st : Progress} {t : Tally} {e : Event}

/-- One more event is reported while the counts become those of `t`. -/
theorem push (h : st.IsReported s)
    (htried : t.tried + st.tally.applied = st.tally.tried + t.applied + [e].countP Event.isRejection)
    (hbudget : (if st.tally.isSpent then [s.limits.maxNodes] else []) ++
      ([e].filterMap Event.budget?).map some = if t.isSpent then [s.limits.maxNodes] else [])
    (hdepth : ∀ depth, e = .depthLimit depth → depth = s.limits.maxDepth)
    (hfinished : ∀ t, e ≠ .finished t) : IsReported s ⟨t, st.log.push e⟩ where
  tried_eq := by
    have heq := h.tried_eq
    simp only [Array.toList_push, List.countP_append]
    omega
  budget_eq := by
    simp only [Array.toList_push, List.filterMap_append, List.map_append]
    rw [h.budget_eq, hbudget]
  depth_eq := by
    intro depth hd
    rw [Array.toList_push, List.mem_append, List.mem_singleton] at hd
    rcases hd with hd | hd
    · exact h.depth_eq depth hd
    · exact hdepth depth hd.symm
  not_finished := by
    intro t' ht
    rw [Array.toList_push, List.mem_append, List.mem_singleton] at ht
    rcases ht with ht | ht
    · exact h.not_finished t' ht
    · exact hfinished t' ht.symm

theorem note_depthLimit (h : st.IsReported s) : (st.note (.depthLimit s.limits.maxDepth)).IsReported s :=
  h.push rfl (List.append_nil _) (fun _ hd => (Event.depthLimit.inj hd).symm) nofun

theorem giveUp (h : st.IsReported s) : st.giveUp.IsReported s :=
  ⟨h.tried_eq, h.budget_eq, h.depth_eq, h.not_finished⟩

theorem advance (h : st.IsReported s) : st.advance.IsReported s where
  tried_eq := by
    have heq := h.tried_eq
    simp only [Progress.advance]
    omega
  budget_eq := h.budget_eq
  depth_eq := h.depth_eq
  not_finished := h.not_finished

theorem reach (h : st.IsReported s) (step : Step) (depth : Nat) : (st.reach step depth).IsReported s :=
  h.advance.push rfl (List.append_nil _) nofun nofun

theorem reject (h : st.IsReported s) (step : Step) (depth : Nat) : (st.reject step depth).IsReported s := by
  refine h.push ?_ (List.append_nil _) nofun nofun
  have hone : [Event.notApplicable step depth].countP Event.isRejection = 1 := rfl
  simp only [hone]
  omega

theorem settle {r : List Node × Progress} (h : r.2.IsReported s) : (Search.settle r).2.IsReported s := by
  obtain ⟨_ | ⟨n, below⟩, st⟩ := r
  · exact h.giveUp
  · exact h

theorem halt (h : st.IsReported s) : (s.halt st).IsReported s := by
  unfold Search.halt
  split
  · exact h
  · split
    · next maxNodes hspent =>
      unfold Progress.exhaust
      split
      · exact h
      · next hfirst =>
        have hmax : s.limits.maxNodes = some maxNodes := (Option.filter_eq_some_iff.mp hspent).1
        refine h.push rfl ?_ nofun nofun
        simp [hfirst, hmax, Event.budget?]
    · exact h

end Progress.IsReported

namespace Progress
variable {s : Search} {st : Progress} {step : Step} {depth : Nat}

/-- The steps that led to the goal and the depths behind them, in the order of the report. -/
def endings (st : Progress) : List (Option Step × Nat) :=
  (st.log.toList.filterMap Event.reached?).map fun (step, depth) => (some step, depth)

theorem endings_push (t : Tally) (log : Array Event) (e : Event) :
    endings ⟨t, log.push e⟩ =
      endings ⟨t, log⟩ ++ ([e].filterMap Event.reached?).map fun (step, depth) => (some step, depth) := by
  simp only [endings, Array.toList_push, List.filterMap_append, List.map_append]

theorem endings_reach : (st.reach step depth).endings = st.endings ++ [(some step, depth)] :=
  endings_push _ _ _

theorem endings_reject : (st.reject step depth).endings = st.endings :=
  (endings_push _ _ _).trans (List.append_nil _)

theorem endings_note_depthLimit : (st.note (.depthLimit depth)).endings = st.endings :=
  (endings_push _ _ _).trans (List.append_nil _)

theorem endings_settle (r : List Node × Progress) : (Search.settle r).2.endings = r.2.endings := by
  obtain ⟨_ | ⟨n, below⟩, st⟩ := r <;> rfl

theorem endings_halt : (s.halt st).endings = st.endings := by
  unfold Search.halt exhaust
  repeat' split
  · rfl
  · rfl
  · exact (endings_push _ _ _).trans (List.append_nil _)
  · rfl

/-- The last step of a path that starts at `depth`, and the depth behind it. -/
def ending (depth : Nat) (path : List Step) : Option Step × Nat := (path.getLast?, depth + path.length)

theorem ending_cons {path : List Step} (h : path ≠ []) (step : Step) (depth : Nat) :
    ending depth (step :: path) = ending (depth + 1) path := by
  have hlen : depth + (step :: path).length = depth + 1 + path.length := by
    rw [List.length_cons]
    omega
  rw [ending, ending, List.getLast?_cons_of_ne_nil h, hlen]

end Progress

namespace Search
open Progress

/-- Below any node the depth and the levels left make up the bound. -/
theorem explore_isReported {s : Search} (levels depth : Nat) (p : Pattern) (st : Progress)
    (hdepth : levels + depth = s.limits.maxDepth) (h : st.IsReported s) :
    (s.explore levels depth p st).2.IsReported s := by
  refine explore_induction
    (fun levels depth _ _ st r => levels + 1 + depth = s.limits.maxDepth → st.IsReported s →
      r.2.IsReported s)
    (fun levels depth _ st r => levels + depth = s.limits.maxDepth → st.IsReported s → r.2.IsReported s)
    ?limit ?settled ?nil ?halted ?rejected ?reached ?descended levels depth p st hdepth h
  case limit =>
    intro depth p st hdepth h
    obtain rfl : depth = s.limits.maxDepth := by omega
    exact h.note_depthLimit.giveUp
  case settled => exact fun _ _ _ _ _ hr hdepth h => (hr hdepth h).settle
  case nil => exact fun _ _ _ _ _ h => h
  case halted => exact fun _ _ _ _ _ _ _ _ h => h.halt
  case rejected => exact fun _ depth _ step _ _ _ _ _ hr hdepth h => hr hdepth (h.reject step depth)
  case reached => exact fun _ depth _ step _ _ _ _ _ hr hdepth h => hr hdepth (h.reach step (depth + 1))
  case descended =>
    intro levels depth p q step rest st b r _ _ _ hb hr hdepth h
    exact hr hdepth (hb (by omega) h.advance)

theorem descent_isReported (s : Search) (source : Pattern) : (s.descent source).2.IsReported s :=
  explore_isReported _ _ _ _ (Nat.add_zero _) ⟨rfl, rfl, by simp, by simp⟩

/-- Matches are reported in the order in which they stand in the tree. -/
theorem explore_endings (s : Search) (levels depth : Nat) (p : Pattern) (st : Progress) :
    [] ∉ Node.pathsIn (s.explore levels depth p st).1 ∧
      (s.explore levels depth p st).2.endings =
        st.endings ++ (Node.pathsIn (s.explore levels depth p st).1).map (ending depth) := by
  refine explore_induction
    (fun _ depth _ _ st r => [] ∉ Node.pathsIn r.1 ∧
      r.2.endings = st.endings ++ (Node.pathsIn r.1).map (ending depth))
    (fun _ depth _ st r => [] ∉ Node.pathsIn r.1 ∧
      r.2.endings = st.endings ++ (Node.pathsIn r.1).map (ending depth))
    ?limit ?settled ?nil ?halted ?rejected ?reached ?descended levels depth p st
  case limit =>
    intro depth p st
    exact ⟨List.not_mem_nil, endings_note_depthLimit.trans (List.append_nil _).symm⟩
  case settled =>
    intro levels depth p st r h
    rwa [settle_fst, endings_settle]
  case nil => exact fun _ _ _ st => ⟨List.not_mem_nil, (List.append_nil _).symm⟩
  case halted =>
    intro levels depth p step rest st _
    refine ⟨List.not_mem_nil, ?_⟩
    rw [endings_halt]
    exact (List.append_nil _).symm
  case rejected =>
    intro levels depth p step rest st r _ _ h
    rwa [endings_reject] at h
  case reached =>
    intro levels depth p step rest st r _ _ h
    obtain ⟨hne, heq⟩ := h
    have hpaths : Node.pathsIn (⟨some step, true, false, []⟩ :: r.1) = [step] :: Node.pathsIn r.1 := by
      simp [Node.pathsIn, Node.paths]
    rw [hpaths]
    constructor
    · simpa using hne
    · rw [heq, endings_reach, List.append_assoc]
      rfl
  case descended =>
    intro levels depth p q step rest st b r _ _ _ hb h
    obtain ⟨hneb, heqb⟩ := hb
    obtain ⟨hne, heq⟩ := h
    have hkept : (Node.pathsIn (Node.kept step b.1)).map (ending depth) =
        (Node.pathsIn b.1).map (ending (depth + 1)) := by
      rw [Node.pathsIn_kept, List.map_map]
      apply List.map_congr_left
      intro path hpath
      exact ending_cons (fun hnil => hneb (hnil ▸ hpath)) step depth
    constructor
    · rw [Node.pathsIn_append, Node.pathsIn_kept]
      simpa using hne
    · rw [heq, heqb, Node.pathsIn_append, List.map_append, hkept, List.append_assoc]
      rfl

theorem descent_endings (s : Search) (source : Pattern) :
    (s.descent source).2.endings =
      (Node.pathsIn (s.descent source).1).map fun path => (path.getLast?, path.length) := by
  have hendings := (s.explore_endings s.limits.maxDepth 0 source
    ⟨{ created := 1 }, #[.started source s.goal s.limits.maxDepth]⟩).2
  have hzero : ending 0 = fun path => (path.getLast?, path.length) := by
    funext path
    rw [ending, Nat.zero_add]
  rw [descent, hendings, hzero]
  rfl

/-- The report tells of each match in the order of the paths, of each rejected candidate and, if the budget is
spent, once of that. It ends with the counts. -/
theorem run_report_agrees (s : Search) {source : Pattern} (h : source ≠ s.goal) :
    let outcome := s.run source
    let tally := outcome.tally
    let events := outcome.events.toList
    let found := events.filterMap Event.reached?
    found.length = tally.reached ∧
      found.map (fun (step, depth) => (some step, depth)) =
        outcome.root.paths.map (fun path => (path.getLast?, path.length)) ∧
      tally.tried = tally.applied + events.countP Event.isRejection ∧
      (∀ depth, .depthLimit depth ∈ events → depth = s.limits.maxDepth) ∧
      (events.filterMap Event.budget?).map some = (if tally.isSpent then [s.limits.maxNodes] else []) ∧
      ∃ before, events = before ++ [.finished tally] ∧ ∀ t, .finished t ∉ before := by
  intro outcome tally events found
  have htally : tally = (s.descent source).2.tally := by simp only [tally, outcome, run_of_ne h]
  have hevents : events = (s.descent source).2.log.toList ++ [.finished tally] := by
    simp only [events, htally, outcome, run_of_ne h, Array.toList_push]
  obtain ⟨htried, hbudget, hdepth, hfinished⟩ := s.descent_isReported source
  have hfound : found.map (fun (step, depth) => (some step, depth)) =
      outcome.root.paths.map (fun path => (path.getLast?, path.length)) := by
    simp only [outcome, run_paths_of_ne h]
    rw [← s.descent_endings source, endings]
    simp only [found, hevents, List.filterMap_append]
    exact congrArg (List.map _) (List.append_nil _)
  refine ⟨?_, hfound, ?_, ?_, ?_, _, hevents, hfinished⟩
  · have hlen := congrArg List.length hfound
    rw [List.length_map, List.length_map] at hlen
    rw [hlen, Node.length_paths]
    exact (s.run_reached_eq_numGoals source).symm
  · rw [hevents, List.countP_append, htally]
    exact htried
  · intro depth hd
    rw [hevents, List.mem_append, List.mem_singleton] at hd
    rcases hd with hd | hd
    · exact hdepth depth hd
    · cases hd
  · rw [hevents, List.filterMap_append, htally, ← hbudget]
    exact congrArg (List.map some) (List.append_nil _)

/-- With a budget of nine nodes two ways are found and reported before it is spent. Where one of two dimensions
has to go, they cannot be merged at once, because they stand in the other order. -/
theorem run_report_agrees_rotation :
    let s : Search := ⟨.transposed [2, 0, 1], { maxDepth := 2, maxNodes := some 9 }⟩
    let outcome := s.run (.transposed [0, 1, 2])
    let narrowing : Search := ⟨.transposed [0], { maxDepth := 2 }⟩
    let narrowed := narrowing.run (.transposed [1, 0])
    (Pattern.transposed [0, 1, 2] ≠ s.goal ∧ outcome.tally.isSpent = true ∧
      (outcome.events.toList.filterMap Event.reached?).map (fun (step, depth) => (some step, depth)) =
        outcome.root.paths.map (fun path => (path.getLast?, path.length)) ∧
      outcome.root.paths.length = 2 ∧
      (outcome.events.toList.filterMap Event.budget?).map some = [some 9] ∧
      outcome.tally.tried = outcome.tally.applied + outcome.events.toList.countP Event.isRejection ∧
      outcome.tally.tried = 8) ∧
    Pattern.transposed [1, 0] ≠ narrowing.goal ∧
      narrowed.tally.tried = narrowed.tally.applied + narrowed.events.toList.countP Event.isRejection ∧
      narrowed.tally.tried = 8 ∧ narrowed.tally.applied = 7 ∧
      Event.notApplicable (.mergeDims 0 1) 0 ∈ narrowed.events.toList := by
  intro s outcome narrowing narrowed
  constructor
  · have hne : Pattern.transposed [0, 1, 2] ≠ s.goal := by decide
    have hcounts : outcome.tally.isSpent = true ∧ outcome.root.paths.length = 2 ∧ outcome.tally.tried = 8 := by
      decide +kernel
    obtain ⟨hspent, hpaths, hnumber⟩ := hcounts
    obtain ⟨-, hfound, htried, -, hbudget, -⟩ := run_report_agrees s hne
    rw [if_pos hspent] at hbudget
    exact ⟨hne, hspent, hfound, hpaths, hbudget, htried, hnumber⟩
  · have hne : Pattern.transposed [1, 0] ≠ narrowing.goal := by decide
    have hcounts : narrowed.tally.tried = 8 ∧ narrowed.tally.applied = 7 ∧
        Event.notApplicable (.mergeDims 0 1) 0 ∈ narrowed.events.toList := by
      decide +kernel
    obtain ⟨-, -, htried, -, -, -⟩ := run_report_agrees narrowing hne
    exact ⟨hne, htried, hcounts⟩

end Search
end AffineSearch
