import AffineSearch.Pattern.WellFormed
import AffineSearch.Proofs.Pattern.Operators

/-! Which patterns are built and which fault is named where none is. It is the first one, operand by operand,
result by result and node by node. -/
namespace AffineSearch

section First
variable {α β ε : Type} {P : α → Prop} {l : List α} {k : Nat} {a : α}

/-- `a` stands at place `k` of the list and is the first of its members with the property. -/
def IsFirstAt (P : α → Prop) (l : List α) (k : Nat) (a : α) : Prop :=
  ∃ front back, l = front ++ a :: back ∧ front.length = k ∧ P a ∧ ∀ b ∈ front, ¬P b

theorem IsFirstAt.holds (h : IsFirstAt P l k a) : P a := by
  obtain ⟨-, -, -, -, ha, -⟩ := h
  exact ha

theorem exists_isFirstAt (h : ∃ a ∈ l, P a) : ∃ k a, IsFirstAt P l k a := by
  induction l with
  | nil =>
    obtain ⟨a, ha, -⟩ := h
    cases ha
  | cons b l ih =>
    by_cases hb : P b
    · exact ⟨0, b, [], l, rfl, rfl, hb, by simp⟩
    · have hrest : ∃ a ∈ l, P a := by simpa [hb] using h
      obtain ⟨k, a, front, back, rfl, hlen, ha, hfront⟩ := ih hrest
      exact ⟨_, a, b :: front, back, rfl, rfl, ha, List.forall_mem_cons.mpr ⟨hb, hfront⟩⟩

theorem mapM_zipIdx_eq_ok {f : α × Nat → Except ε β} {g : α → β} (h : ∀ a ∈ l, ∀ k, f (a, k) = .ok (g a)) :
    l.zipIdx.mapM f = .ok (l.map g) := by
  have hpure : ∀ x ∈ l.zipIdx, f x = pure (g x.1) := by
    intro x hx
    exact h x.1 (List.fst_mem_of_mem_zipIdx hx) x.2
  have hfst : l.zipIdx.map (g ∘ Prod.fst) = l.map g := by
    rw [← List.map_map, List.zipIdx_map_fst]
  rw [mapM_congr hpure, List.mapM_pure]
  exact congrArg Except.ok hfst

/-- A traversal that fails at the members with the property has the error of the first. -/
theorem IsFirstAt.mapM_zipIdx (h : IsFirstAt P l k a) {f : α × Nat → Except ε β} {g : α → β} {e : ε}
    (hok : ∀ b j, ¬P b → f (b, j) = .ok (g b)) (herror : f (a, k) = .error e) :
    l.zipIdx.mapM f = .error e := by
  obtain ⟨front, back, rfl, rfl, -, hfront⟩ := h
  have hbefore : front.zipIdx.mapM f = .ok (front.map g) :=
    mapM_zipIdx_eq_ok fun b hb j => hok b j (hfront b hb)
  rw [List.zipIdx_append, List.mapM_append, hbefore, List.zipIdx_cons, List.mapM_cons, Nat.zero_add,
    herror]
  rfl

theorem IsFirstAt.findSome?_zipIdx (h : IsFirstAt P l k a) {f : α × Nat → Option β} {b : β}
    (hnone : ∀ c j, ¬P c → f (c, j) = none) (hsome : f (a, k) = some b) :
    l.zipIdx.findSome? f = some b := by
  obtain ⟨front, back, rfl, rfl, -, hfront⟩ := h
  have hbefore : front.zipIdx.findSome? f = none := by
    rw [List.findSome?_eq_none_iff]
    intro c hc
    exact hnone c.1 c.2 (hfront c.1 (List.fst_mem_of_mem_zipIdx hc))
  rw [List.zipIdx_append, List.findSome?_append, hbefore, List.zipIdx_cons, List.findSome?_cons,
    Nat.zero_add, hsome, Option.none_or]

end First

namespace Expr
variable {numDims numSymbols : Nat} {results : List Expr} {cause : MapError}

/-- The error that names a node if it is a variable outside the domain. -/
def missing? (numDims numSymbols : Nat) : Expr → Option MapError
  | dim p => if numDims ≤ p then some (.dimOutOfRange p numDims) else none
  | symbol p => if numSymbols ≤ p then some (.symbolOutOfRange p numSymbols) else none
  | const _ | binary _ _ _ => none

/-- The error names the first variable outside the domain, in the order of the results and in each of them with
every node before its operands. -/
def FirstMissing (numDims numSymbols : Nat) (results : List Expr) (cause : MapError) : Prop :=
  ∃ k v, IsFirstAt (fun v => v.missing? numDims numSymbols ≠ none) (results.flatMap nodes) k v ∧
    v.missing? numDims numSymbols = some cause

theorem findSome?_nodes_missing? (e : Expr) :
    e.nodes.findSome? (missing? numDims numSymbols) = e.outOfScope? numDims numSymbols := by
  induction e with
  | dim p => by_cases h : p < numDims <;> simp [nodes, missing?, outOfScope?, h]
  | symbol p => by_cases h : p < numSymbols <;> simp [nodes, missing?, outOfScope?, h]
  | const c => rfl
  | binary op l r hl hr =>
    rw [nodes, List.findSome?_cons, List.findSome?_append, hl, hr]
    rfl

theorem findSome?_flatMap_nodes (results : List Expr) :
    (results.flatMap nodes).findSome? (missing? numDims numSymbols) =
      results.findSome? (·.outOfScope? numDims numSymbols) := by
  induction results with
  | nil => rfl
  | cons e results ih =>
    rw [List.flatMap_cons, List.findSome?_append, List.findSome?_cons, findSome?_nodes_missing?, ih]
    cases e.outOfScope? numDims numSymbols <;> rfl

theorem firstMissing_of_findSome? (h : results.findSome? (·.outOfScope? numDims numSymbols) = some cause) :
    FirstMissing numDims numSymbols results cause := by
  rw [← findSome?_flatMap_nodes, List.findSome?_eq_some_iff] at h
  obtain ⟨front, v, back, hsplit, hv, hfront⟩ := h
  have hne : v.missing? numDims numSymbols ≠ none := by simp [hv]
  refine ⟨front.length, v, ⟨front, back, hsplit, rfl, hne, ?_⟩, hv⟩
  intro u hu
  exact not_not_intro (hfront u hu)

end Expr

/-- The domain of the map has other sizes. -/
def IndexMap.Differs (numDims numSymbols : Nat) (m : IndexMap) : Prop :=
  m.numDims ≠ numDims ∨ m.numSymbols ≠ numSymbols

namespace Pattern
variable {numDims numSymbols : Nat} {results : List Expr} {operands : List (List Expr)} {m first : IndexMap}
  {maps : List IndexMap} {kinds : List Kind}

/-- Some result has a variable outside the domain. -/
def HasMissing (numDims numSymbols : Nat) (results : List Expr) : Prop :=
  ∃ e ∈ results, ¬e.InScope numDims numSymbols

theorem not_hasMissing_iff :
    ¬HasMissing numDims numSymbols results ↔ ∀ e ∈ results, e.InScope numDims numSymbols := by
  simp [HasMissing]

theorem operandMap_eq_ok (k : Nat) (h : ¬HasMissing numDims numSymbols results) :
    operandMap numDims numSymbols k results = .ok ⟨numDims, numSymbols, results⟩ := by
  rw [operandMap, IndexMap.ofResults_eq_ok_iff.mpr ⟨rfl, not_hasMissing_iff.mp h⟩]

theorem exists_operandMap_eq_error (k : Nat) (h : HasMissing numDims numSymbols results) :
    ∃ cause, Expr.FirstMissing numDims numSymbols results cause ∧
      operandMap numDims numSymbols k results = .error (.badMap k cause) := by
  unfold operandMap IndexMap.ofResults
  cases hfind : results.findSome? (·.outOfScope? numDims numSymbols) with
  | some cause => exact ⟨cause, Expr.firstMissing_of_findSome? hfind, rfl⟩
  | none =>
    obtain ⟨e, he, hout⟩ := h
    exact absurd (Expr.outOfScope?_eq_none_iff.mp (List.findSome?_eq_none_iff.mp hfind e he)) hout

theorem not_differs_iff :
    ¬m.Differs numDims numSymbols ↔ m.numDims = numDims ∧ m.numSymbols = numSymbols := by
  simp [IndexMap.Differs]

theorem mismatch?_eq_none (k : Nat) (h : ¬m.Differs numDims numSymbols) :
    mismatch? numDims numSymbols k m = none := by
  obtain ⟨hdims, hsymbols⟩ := not_differs_iff.mp h
  rw [mismatch?, if_neg (not_not_intro hdims), if_neg (not_not_intro hsymbols)]

theorem mismatch?_eq_some (k : Nat) (h : m.Differs numDims numSymbols) :
    mismatch? numDims numSymbols k m = some (if m.numDims ≠ numDims then .dimensionCount k m.numDims numDims
      else .symbolCount k m.numSymbols numSymbols) := by
  unfold mismatch?
  by_cases hdims : m.numDims = numDims
  · have hsymbols : m.numSymbols ≠ numSymbols := h.resolve_left fun hne => hne hdims
    simp [hdims, hsymbols]
  · simp [hdims]

theorem ofMaps_of_head? (hfirst : maps.head? = some first) : ofMaps maps kinds =
    match maps.zipIdx.findSome? fun (m, k) => mismatch? kinds.length first.numSymbols k m with
    | some fault => .error fault
    | none => .ok ⟨maps, kinds⟩ := by
  obtain ⟨rest, rfl⟩ := List.head?_eq_some_iff.mp hfirst
  rfl

theorem ofMaps_eq_ok (hfirst : maps.head? = some first)
    (h : ¬∃ m ∈ maps, m.Differs kinds.length first.numSymbols) : ofMaps maps kinds = .ok ⟨maps, kinds⟩ := by
  have hnone : maps.zipIdx.findSome? (fun (m, k) => mismatch? kinds.length first.numSymbols k m) = none := by
    rw [List.findSome?_eq_none_iff]
    intro (m, k) hm
    exact mismatch?_eq_none k fun hdiffers => h ⟨m, List.fst_mem_of_mem_zipIdx hm, hdiffers⟩
  rw [ofMaps_of_head? hfirst, hnone]

theorem ofMaps_eq_error (hfirst : maps.head? = some first)
    (h : ∃ m ∈ maps, m.Differs kinds.length first.numSymbols) :
    ∃ k m, IsFirstAt (IndexMap.Differs kinds.length first.numSymbols) maps k m ∧
      ofMaps maps kinds = .error (if m.numDims ≠ kinds.length then .dimensionCount k m.numDims kinds.length
        else .symbolCount k m.numSymbols first.numSymbols) := by
  obtain ⟨k, m, hm⟩ := exists_isFirstAt h
  have hsome := hm.findSome?_zipIdx (f := fun (m, k) => mismatch? kinds.length first.numSymbols k m)
    (fun m k => mismatch?_eq_none k) (mismatch?_eq_some k hm.holds)
  exact ⟨k, m, hm, by rw [ofMaps_of_head? hfirst, hsome]⟩

theorem ofResults_eq_ofMaps (h : ¬∃ results ∈ operands, HasMissing kinds.length numSymbols results) :
    ofResults numSymbols operands kinds = ofMaps (operands.map (⟨kinds.length, numSymbols, ·⟩)) kinds := by
  have hok : ∀ results ∈ operands, ∀ k, operandMap kinds.length numSymbols k results =
      .ok ⟨kinds.length, numSymbols, results⟩ := by
    intro results hresults k
    exact operandMap_eq_ok k fun hmissing => h ⟨results, hresults, hmissing⟩
  unfold ofResults
  rw [mapM_zipIdx_eq_ok hok]
  rfl

/-- Maps that are built over one domain do not differ, so they only have to exist. -/
theorem ofResults_eq_ok (hne : operands ≠ [])
    (h : ¬∃ results ∈ operands, HasMissing kinds.length numSymbols results) :
    ofResults numSymbols operands kinds = .ok ⟨operands.map (⟨kinds.length, numSymbols, ·⟩), kinds⟩ := by
  obtain ⟨results, rest, rfl⟩ := List.exists_cons_of_ne_nil hne
  have hhead : ((results :: rest).map (⟨kinds.length, numSymbols, ·⟩)).head? =
      some (⟨kinds.length, numSymbols, results⟩ : IndexMap) := rfl
  rw [ofResults_eq_ofMaps h]
  refine ofMaps_eq_ok hhead ?_
  rintro ⟨m, hm, hdiffers⟩
  obtain ⟨results', -, rfl⟩ := List.mem_map.mp hm
  exact hdiffers.elim (fun hdims => hdims rfl) fun hsymbols => hsymbols rfl

theorem ofResults_eq_error (h : ∃ results ∈ operands, HasMissing kinds.length numSymbols results) :
    ∃ k results cause, IsFirstAt (HasMissing kinds.length numSymbols) operands k results ∧
      Expr.FirstMissing kinds.length numSymbols results cause ∧
      ofResults numSymbols operands kinds = .error (.badMap k cause) := by
  obtain ⟨k, results, hresults⟩ := exists_isFirstAt h
  obtain ⟨cause, hcause, herror⟩ := exists_operandMap_eq_error k hresults.holds
  refine ⟨k, results, cause, hresults, hcause, ?_⟩
  unfold ofResults
  rw [hresults.mapM_zipIdx (fun results k => operandMap_eq_ok k) herror]
  rfl

theorem ofMaps_eq_ok_iff {p : Pattern} : ofMaps maps kinds = .ok p ↔ p = ⟨maps, kinds⟩ ∧
    ∃ first, maps.head? = some first ∧ ¬∃ m ∈ maps, m.Differs kinds.length first.numSymbols := by
  constructor
  · intro hp
    cases hfirst : maps.head? with
    | none =>
      rw [List.head?_eq_none_iff.mp hfirst] at hp
      cases hp
    | some first =>
      by_cases h : ∃ m ∈ maps, m.Differs kinds.length first.numSymbols
      · obtain ⟨k, m, -, herror⟩ := ofMaps_eq_error hfirst h
        rw [herror] at hp
        cases hp
      · rw [ofMaps_eq_ok hfirst h] at hp
        exact ⟨(Except.ok.inj hp).symm, first, rfl, h⟩
  · rintro ⟨rfl, first, hfirst, h⟩
    exact ofMaps_eq_ok hfirst h

theorem ofResults_cases (numSymbols : Nat) (operands : List (List Expr)) (kinds : List Kind) :
    (operands = [] ∧ ofResults numSymbols operands kinds = .error .noMaps) ∨
    (operands ≠ [] ∧ (¬∃ results ∈ operands, HasMissing kinds.length numSymbols results) ∧
      ofResults numSymbols operands kinds = .ok ⟨operands.map (⟨kinds.length, numSymbols, ·⟩), kinds⟩) ∨
    ∃ k cause, ofResults numSymbols operands kinds = .error (.badMap k cause) := by
  by_cases hempty : operands = []
  · exact Or.inl ⟨hempty, hempty ▸ rfl⟩
  · by_cases h : ∃ results ∈ operands, HasMissing kinds.length numSymbols results
    · obtain ⟨k, -, cause, -, -, herror⟩ := ofResults_eq_error h
      exact Or.inr (Or.inr ⟨k, cause, herror⟩)
    · exact Or.inr (Or.inl ⟨hempty, h, ofResults_eq_ok hempty h⟩)

theorem ofResults_eq_ok_iff {p : Pattern} : ofResults numSymbols operands kinds = .ok p ↔ operands ≠ [] ∧
    (¬∃ results ∈ operands, HasMissing kinds.length numSymbols results) ∧
    p = ⟨operands.map (⟨kinds.length, numSymbols, ·⟩), kinds⟩ := by
  constructor
  · intro hp
    rcases ofResults_cases numSymbols operands kinds with ⟨-, herror⟩ | ⟨hne, h, hok⟩ | ⟨k, cause, herror⟩
    · rw [herror] at hp
      cases hp
    · rw [hok] at hp
      exact ⟨hne, h, (Except.ok.inj hp).symm⟩
    · rw [herror] at hp
      cases hp
  · rintro ⟨hne, h, rfl⟩
    exact ofResults_eq_ok hne h

/-- Results make a pattern if there is an operand and all variables are in range. If one is not, the error names the
first operand that has one and the first in it. Maps make a pattern if there are some, each with a dimension for
every kind and the symbols of the first. If one differs, the error names the first of these, and its dimensions
rather than its symbols. -/
theorem validation_names_first_fault (numSymbols : Nat) (operands : List (List Expr)) (maps : List IndexMap)
    (kinds : List Kind) :
    ((∀ p, ofResults numSymbols operands kinds = .ok p ↔ operands ≠ [] ∧
        (∀ results ∈ operands, ∀ e ∈ results, e.InScope kinds.length numSymbols) ∧
        p = ⟨operands.map (⟨kinds.length, numSymbols, ·⟩), kinds⟩) ∧
      (operands = [] → ofResults numSymbols operands kinds = .error .noMaps) ∧
      (∀ k n expected, ofResults numSymbols operands kinds ≠ .error (.dimensionCount k n expected) ∧
        ofResults numSymbols operands kinds ≠ .error (.symbolCount k n expected)) ∧
      ((∃ results ∈ operands, HasMissing kinds.length numSymbols results) →
        ∃ k results cause, IsFirstAt (HasMissing kinds.length numSymbols) operands k results ∧
          Expr.FirstMissing kinds.length numSymbols results cause ∧
          ofResults numSymbols operands kinds = .error (.badMap k cause))) ∧
    (∀ p, ofMaps maps kinds = .ok p ↔ p = ⟨maps, kinds⟩ ∧ ∃ first, maps.head? = some first ∧
        ∀ m ∈ maps, m.numDims = kinds.length ∧ m.numSymbols = first.numSymbols) ∧
      (maps = [] → ofMaps maps kinds = .error .noMaps) ∧
      ∀ first, maps.head? = some first → (∃ m ∈ maps, m.Differs kinds.length first.numSymbols) →
        ∃ k m, IsFirstAt (IndexMap.Differs kinds.length first.numSymbols) maps k m ∧
          ofMaps maps kinds = .error (if m.numDims ≠ kinds.length
            then .dimensionCount k m.numDims kinds.length
            else .symbolCount k m.numSymbols first.numSymbols) := by
  refine ⟨⟨?results, fun hempty => hempty ▸ rfl, ?never, ofResults_eq_error⟩, ?maps, fun hempty => hempty ▸ rfl,
    fun first => ofMaps_eq_error⟩
  case results =>
    intro p
    simp only [ofResults_eq_ok_iff, ← not_hasMissing_iff, not_exists, not_and]
  case never =>
    intro k n expected
    rcases ofResults_cases numSymbols operands kinds with ⟨-, hout⟩ | ⟨-, -, hout⟩ | ⟨j, cause, hout⟩ <;>
      simp [hout]
  case maps =>
    intro p
    simp only [ofMaps_eq_ok_iff, ← not_differs_iff, not_exists, not_and]

/-- The dimension is met before the symbol in the same product, and both before the later result and operand. The
second map differs in both numbers. -/
theorem validation_names_first_fault_mixed :
    let kinds : List Kind := [.parallel, .reduction]
    let operands : List (List Expr) := [[.dim 0], [.dim 1, .binary .add (.symbol 0)
      (.binary .mul (.dim 5) (.symbol 3)), .dim 9], [.dim 7]]
    let maps : List IndexMap := [⟨2, 1, [.dim 0]⟩, ⟨3, 0, [.dim 2]⟩, ⟨2, 4, []⟩]
    ((∃ results ∈ operands, HasMissing 2 1 results) ∧
      ofResults 1 operands kinds = .error (.badMap 1 (.dimOutOfRange 5 2)) ∧
      ∃ results, IsFirstAt (HasMissing 2 1) operands 1 results ∧
        Expr.FirstMissing 2 1 results (.dimOutOfRange 5 2)) ∧
    (∃ m ∈ maps, m.Differs 2 1) ∧ ofMaps maps kinds = .error (.dimensionCount 1 3 2) ∧
      ∃ m, IsFirstAt (IndexMap.Differs 2 1) maps 1 m ∧ m.numDims = 3 := by
  intro kinds operands maps
  have hmissing : ∃ results ∈ operands, HasMissing 2 1 results :=
    ⟨[.dim 7], by decide, .dim 7, by decide, by decide⟩
  have hdiffers : ∃ m ∈ maps, m.Differs 2 1 := ⟨⟨2, 4, []⟩, by decide, Or.inr (by decide)⟩
  have hresults : ofResults 1 operands kinds = .error (.badMap 1 (.dimOutOfRange 5 2)) := rfl
  have hmaps : ofMaps maps kinds = .error (.dimensionCount 1 3 2) := rfl
  obtain ⟨⟨-, -, -, hmissingError⟩, -, -, hdiffersError⟩ := validation_names_first_fault 1 operands maps kinds
  obtain ⟨k, results, cause, hfirst, hcause, herror⟩ := hmissingError hmissing
  rw [hresults, Except.error.injEq, PatternError.badMap.injEq] at herror
  obtain ⟨rfl, rfl⟩ := herror
  obtain ⟨k, m, hfirstMap, herror⟩ := hdiffersError _ rfl hdiffers
  rw [hmaps, Except.error.injEq] at herror
  split at herror
  · obtain ⟨rfl, hdims, -⟩ := PatternError.dimensionCount.inj herror
    exact ⟨⟨hmissing, hresults, results, hfirst, hcause⟩, hdiffers, hmaps, m, hfirstMap, hdims.symm⟩
  · cases herror

end Pattern
end AffineSearch
