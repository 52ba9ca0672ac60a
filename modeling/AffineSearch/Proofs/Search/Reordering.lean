import AffineSearch.Proofs.Search.Complete
import AffineSearch.Proofs.Search.Limited
import Mathlib.Algebra.Order.Ring.Nat
import Mathlib.Data.List.Forall2

/-! A search finds every order of the results. Exchanges of two results bring those of one operand into place,
one fewer than there are results. -/
namespace AffineSearch

/-- That many exchanges of two elements lead from one list to the other. -/
inductive SwappedIn {α : Type} : Nat → List α → List α → Prop
  | refl {l} : SwappedIn 0 l l
  | swap {n l l' i j a b} : l[i]? = some a → l[j]? = some b →
      SwappedIn n ((l.set i b).set j a) l' → SwappedIn (n + 1) l l'

section
variable {α : Type} {n : Nat} {l l' : List α}

theorem SwappedIn.cons (h : SwappedIn n l l') (c : α) : SwappedIn n (c :: l) (c :: l') := by
  induction h with
  | refl => exact .refl
  | @swap n l l' i j a b ha hb _ ih =>
    have ha' : (c :: l)[i + 1]? = some a := ha
    have hb' : (c :: l)[j + 1]? = some b := hb
    exact .swap ha' hb' ih

/-- The first element is exchanged into its place, and the others are ordered behind it. -/
theorem exists_swappedIn_of_perm (h : l.Perm l') : ∃ n ≤ l.length - 1, SwappedIn n l l' := by
  induction l' generalizing l with
  | nil =>
    obtain rfl := h.eq_nil
    exact ⟨0, Nat.zero_le _, .refl⟩
  | cons a l' ih =>
    cases l with
    | nil => exact absurd h.symm.eq_nil (List.cons_ne_nil a l')
    | cons b l =>
      by_cases hab : b = a
      · subst hab
        obtain ⟨n, hn, hs⟩ := ih h.cons_inv
        refine ⟨n, ?_, hs.cons b⟩
        rw [List.length_cons]
        omega
      · have ha : a ∈ l := List.mem_of_ne_of_mem (Ne.symm hab) (h.mem_iff.mpr List.mem_cons_self)
        obtain ⟨i, hi, rfl⟩ := List.mem_iff_getElem.mp ha
        have hi' : i + 1 < (b :: l).length := Nat.succ_lt_succ hi
        have hperm : (l[i] :: l.set i b).Perm (b :: l) :=
          List.set_set_perm (i := 0) (j := i + 1) (Nat.zero_lt_of_lt hi') hi'
        obtain ⟨n, hn, hs⟩ := ih (hperm.trans h).cons_inv
        refine ⟨n + 1, ?_, .swap (i := 0) (j := i + 1) rfl (List.getElem?_eq_getElem hi) (hs.cons l[i])⟩
        rw [List.length_set] at hn
        rw [List.length_cons]
        omega

end

/-- The domain and the results are the same, but for the order of the results. -/
structure IndexMap.IsReordering (m m' : IndexMap) : Prop where
  numDims_eq : m.numDims = m'.numDims
  numSymbols_eq : m.numSymbols = m'.numSymbols
  perm : m.results.Perm m'.results

structure Pattern.IsReordering (p q : Pattern) : Prop where
  kinds_eq : p.kinds = q.kinds
  maps : List.Forall₂ IndexMap.IsReordering p.maps q.maps

namespace Pattern
variable {goal p : Pattern} {k : Nat}

/-- A mask for one operand leaves all others as they are. -/
theorem perform?_permute_single {m m' : IndexMap} {i j : Nat} (hm : p.maps[k]? = some m)
    (hs : (m.swapResults i j).toOption = some m') :
    (Step.permute i j (.ofIndices p.numOperands [k])).perform? p = some ⟨p.maps.set k m', p.kinds⟩ := by
  obtain ⟨hk, hget⟩ := List.getElem?_eq_some_iff.mp hm
  have hsel : ∀ k' < p.numOperands,
      (Mask.ofIndices p.numOperands [k]).isSelected k' = decide (k' = k) := by
    intro k' hk'
    simp [Mask.isSelected_ofIndices hk']
  refine permute?_eq_some_iff.mpr ⟨?_, rfl, ?_⟩
  · exact Mask.selectsBelow_iff.mpr ⟨k, hk, by simp [hsel k hk]⟩
  · apply List.ext_getElem?
    intro k'
    rw [List.getElem?_map, List.getElem?_zipIdx, List.getElem?_map, List.getElem?_set, Nat.zero_add]
    cases hm' : p.maps[k']? with
    | none =>
      have hne : k ≠ k' := by
        rintro rfl
        rw [hm] at hm'
        cases hm'
      simp [hne]
    | some m₀ =>
      have hk' : k' < p.numOperands := (List.getElem?_eq_some_iff.mp hm').1
      by_cases hkk : k' = k
      · subst hkk
        obtain rfl : m = m₀ := Option.some.inj (hm.symm.trans hm')
        simp [hsel k' hk', hs, hk]
      · simp [hsel k' hk', hkk, Ne.symm hkk]

theorem reachedIn_of_swappedIn {n n' numDims numSymbols : Nat} {l l' : List Expr} (h : SwappedIn n l l')
    (hm : p.maps[k]? = some ⟨numDims, numSymbols, l⟩)
    (hq : goal.ReachedIn n' ⟨p.maps.set k ⟨numDims, numSymbols, l'⟩, p.kinds⟩) :
    goal.ReachedIn (n' + n) p := by
  induction h generalizing p with
  | refl =>
    obtain ⟨hk, hget⟩ := List.getElem?_eq_some_iff.mp hm
    rwa [← hget, List.set_getElem_self] at hq
  | @swap n l l' i j a b ha hb _ ih =>
    have hs : ((IndexMap.mk numDims numSymbols l).swapResults i j).toOption =
        some ⟨numDims, numSymbols, (l.set i b).set j a⟩ :=
      IndexMap.swapResults_toOption_eq_some_iff.mpr ⟨a, b, ha, hb, rfl⟩
    have hk := (List.getElem?_eq_some_iff.mp hm).1
    have hadmissible : (Step.permute i j (.ofIndices p.numOperands [k])).IsAdmissible goal.numDims p := trivial
    refine .step hadmissible (perform?_permute_single hm hs) (ih ?_ ?_)
    · exact List.getElem?_set_self hk
    · rwa [List.set_set]

/-- One operand after the other is put in order. Those in `done` are already. -/
theorem exists_reachedIn_of_forall₂ {maps maps' : List IndexMap} {kinds : List Kind}
    (h : List.Forall₂ IndexMap.IsReordering maps maps') (done : List IndexMap) :
    ∃ n ≤ (maps.map fun m => m.numResults - 1).sum,
      ReachedIn ⟨done ++ maps', kinds⟩ n ⟨done ++ maps, kinds⟩ := by
  induction h generalizing done with
  | nil => exact ⟨0, Nat.zero_le _, .here⟩
  | @cons m m' maps maps' hm _ ih =>
    have hm' : m' = ⟨m.numDims, m.numSymbols, m'.results⟩ := by
      rw [hm.numDims_eq, hm.numSymbols_eq]
    have hget : (done ++ m :: maps)[done.length]? = some m := by simp
    obtain ⟨n, hn, hs⟩ := exists_swappedIn_of_perm hm.perm
    obtain ⟨n', hn', hr⟩ := ih (done ++ [m'])
    refine ⟨n' + n, ?_, reachedIn_of_swappedIn hs hget ?_⟩
    · rw [List.map_cons, List.sum_cons, IndexMap.numResults]
      omega
    · rw [← hm']
      simpa using hr

theorem IsReordering.exists_reachedIn {p q : Pattern} (h : p.IsReordering q) :
    ∃ n ≤ (p.maps.map fun m => m.numResults - 1).sum, q.ReachedIn n p := by
  have hq : (⟨q.maps, p.kinds⟩ : Pattern) = q := by rw [h.kinds_eq]
  rw [← hq]
  exact exists_reachedIn_of_forall₂ h.maps []

end Pattern

namespace Search

/-- Without a node budget, a goal that has the results of each operand in another order is found at a depth
of one exchange for each result but the first. -/
theorem run_finds_reordering {source goal : Pattern} {maxDepth : Nat} (firstMatch : Bool)
    (h : source.IsReordering goal) (hn : source.numOperands < 64)
    (hd : (source.maps.map fun m => m.numResults - 1).sum ≤ maxDepth) :
    ((Search.mk goal { maxDepth, maxNodes := none, firstMatch }).run source).root.reachesGoal = true := by
  obtain ⟨n, hle, hr⟩ := h.exists_reachedIn
  let all : Search := ⟨goal, { maxDepth, maxNodes := none, firstMatch := false }⟩
  obtain ⟨path, hpath, -⟩ := exists_mem_paths_of_reachedIn (s := all) rfl rfl hn hr (hle.trans hd)
  rw [Node.reachesGoal_iff]
  cases firstMatch with
  | false => exact ⟨path, hpath⟩
  | true =>
    rw [run_paths_firstMatch]
    obtain ⟨first, rest, hcons⟩ := List.exists_cons_of_ne_nil (List.ne_nil_of_mem hpath)
    exact ⟨first, by simp [all, hcons]⟩

/-- One operand is rotated, one has equal results only and one exchanges its two. -/
theorem run_finds_reordering_pair :
    let kinds : List Kind := [.parallel, .parallel, .reduction]
    let source : Pattern := ⟨[⟨3, 0, [.dim 0, .dim 1, .dim 2]⟩, ⟨3, 0, [.dim 2, .dim 2]⟩,
      ⟨3, 0, [.dim 0, .const 1]⟩], kinds⟩
    let goal : Pattern := ⟨[⟨3, 0, [.dim 2, .dim 0, .dim 1]⟩, ⟨3, 0, [.dim 2, .dim 2]⟩,
      ⟨3, 0, [.const 1, .dim 0]⟩], kinds⟩
    source.IsReordering goal ∧ source.numOperands < 64 ∧
      (source.maps.map fun m => m.numResults - 1).sum ≤ 4 ∧
      ((Search.mk goal { maxDepth := 4, firstMatch := true }).run source).root.reachesGoal = true := by
  intro kinds source goal
  have h : source.IsReordering goal :=
    ⟨rfl, .cons ⟨rfl, rfl, by decide⟩ (.cons ⟨rfl, rfl, by decide⟩ (.cons ⟨rfl, rfl, by decide⟩ .nil))⟩
  have hn : source.numOperands < 64 := by decide
  have hd : (source.maps.map fun m => m.numResults - 1).sum ≤ 4 := by decide
  exact ⟨h, hn, hd, run_finds_reordering true h hn hd⟩

end Search
end AffineSearch
