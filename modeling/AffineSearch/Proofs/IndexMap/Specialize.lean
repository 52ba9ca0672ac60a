import AffineSearch.Proofs.Expr.Magnitude
import AffineSearch.Proofs.Expr.Renaming
import AffineSearch.Proofs.IndexMap.Scope

/-! To eliminate a variable is to substitute for all of them at once and to leave out what became 0. One
such specialization after the other is again one. -/
namespace AffineSearch

namespace Expr
variable {make : Nat → Expr} {e : Expr} {c : Int64} {count d i j p : Nat}

/-- Variable `d` is held at `c` and those above it move down. -/
def held (make : Nat → Expr) (d : Nat) (c : Int64) (p : Nat) : Expr :=
  if p < d then make p else if p = d then const c else make (p - 1)

theorem held_of_lt (h : p < d) : held make d c p = make p := if_pos h

theorem held_self (make : Nat → Expr) (d : Nat) (c : Int64) : held make d c d = const c := by
  simp [held]

theorem held_of_gt (h : d < p) : held make d c p = make (p - 1) := by
  rw [held, if_neg (Nat.not_lt_of_gt h), if_neg (Nat.ne_of_gt h)]

theorem held_of_ne (h : p ≠ d) : held make d c p = make (closeUp d p) := by
  rcases Nat.lt_or_gt_of_ne h with h | h
  · rw [held_of_lt h, closeUp, if_pos h]
  · rw [held_of_gt h, closeUp, if_neg (Nat.not_lt_of_gt h)]

theorem projected_singleton_eq_held (hp : p < count) : projected make count [d] p = held make d 0 p := by
  by_cases hself : p = d
  · rw [hself, held_self, projected, if_neg (Nat.not_le_of_lt (hself ▸ hp)), if_pos (List.mem_singleton_self d)]
  · rw [projected_singleton_of_ne hp hself, held_of_ne hself, closeUp]

/-- Removing the lower variable first leaves the upper one at one position less. -/
theorem held_held (make : Nat → Expr) (c : Int64) (h : i < j) :
    held (held make (j - 1) c) i c = held (held make i c) j c := by
  funext p
  rcases Nat.lt_trichotomy p i with hi | rfl | hi
  · rw [held_of_lt hi, held_of_lt (by omega), held_of_lt (by omega), held_of_lt hi]
  · rw [held_self, held_of_lt h, held_self]
  · rcases Nat.lt_trichotomy p j with hj | rfl | hj
    · rw [held_of_gt hi, held_of_lt (by omega), held_of_lt hj, held_of_gt hi]
    · rw [held_of_gt hi, held_self, held_self]
    · rw [held_of_gt hi, held_of_gt (by omega), held_of_gt hj, held_of_gt (by omega)]

theorem magnitude_held_le (hmake : ∀ p, (make p).magnitude ≤ 2) (hc : (const c).magnitude ≤ 2) (p : Nat) :
    (held make d c p).magnitude ≤ 2 := by
  unfold held
  split
  · exact hmake p
  · split
    · exact hc
    · exact hmake (p - 1)

theorem magnitude_projected_le (hmake : ∀ p, (make p).magnitude ≤ 2) {count : Nat} {positions : List Nat}
    (p : Nat) : (projected make count positions p).magnitude ≤ 2 := by
  unfold projected
  split
  · exact hmake p
  · split
    · decide
    · exact hmake _

theorem substitute_held (f g : Nat → Expr) (p : Nat) :
    (held make d c p).substitute f g = held (fun q => (make q).substitute f g) d c p := by
  unfold held
  split
  · rfl
  · split
    · rfl
    · rfl

/-- To put a constant for a dimension and to close the gap is the substitution that holds it there. -/
theorem substitute_held_dim (e : Expr) (d : Nat) (c : Int64) :
    e.substitute (held .dim d c) .symbol = (e.replace (.dim d) (.const c)).lowerDims d := by
  have hold : (dim d).substitute (held .dim d c) .symbol = const c := held_self .dim d c
  have hdims : ∀ p, dim p ≠ dim d → held dim d c p = dim (closeUp d p) :=
    fun p hne => held_of_ne (ne_of_apply_ne dim hne)
  exact (rename_replace hold hdims (fun p _ => rfl) e).symm

theorem substitute_held_symbol (e : Expr) (s : Nat) (c : Int64) :
    e.substitute .dim (held .symbol s c) = (e.replace (.symbol s) (.const c)).lowerSymbols s := by
  have hold : (symbol s).substitute .dim (held .symbol s c) = const c := held_self .symbol s c
  have hsymbols : ∀ p, symbol p ≠ symbol s → held symbol s c p = symbol (closeUp s p) :=
    fun p hne => held_of_ne (ne_of_apply_ne symbol hne)
  exact (rename_replace hold (fun p _ => rfl) hsymbols e).symm

theorem substitute_held_dim_eq_const_iff : e.substitute (held .dim d 0) .symbol = const c ↔
    e.replace (.dim d) (.const 0) = const c := by
  rw [substitute_held_dim, lowerDims, rename_eq_const_iff]

theorem substitute_held_symbol_eq_const_iff : e.substitute .dim (held .symbol d 1) = const c ↔
    e.replace (.symbol d) (.const 1) = const c := by
  rw [substitute_held_symbol, lowerSymbols, rename_eq_const_iff]

theorem RedexFree.substitute_held_dim (h : e.RedexFree) (hd : e.mentionsDim d = false) :
    e.substitute (held .dim d 0) .symbol = e.lowerDims d := by
  apply h.substitute_eq_rename
  apply (mentionsDim_eq_false_iff.mp hd).mono
  · exact fun p hne => held_of_ne hne
  · exact fun p _ => rfl

theorem RedexFree.substitute_held_symbol (h : e.RedexFree) (hd : e.mentionsSymbol d = false) :
    e.substitute .dim (held .symbol d 1) = e.lowerSymbols d := by
  apply h.substitute_eq_rename
  apply (mentionsSymbol_eq_false_iff.mp hd).mono
  · exact fun p _ => rfl
  · exact fun p hne => held_of_ne hne

/-- What is 0 already may be left out before the substitution as well as after it. -/
theorem filter_map_filter_ne_zero {t : Expr → Expr} (ht : t (const 0) = const 0) (es : List Expr) :
    ((es.filter (· ≠ const 0)).map t).filter (· ≠ const 0) = (es.map t).filter (· ≠ const 0) := by
  rw [List.filter_map, List.filter_map, List.filter_filter]
  congr 1
  apply List.filter_congr
  intro e _
  by_cases he : e = const 0
  · simp [he, ht]
  · simp [he]

end Expr

namespace IndexMap
variable {m m' : IndexMap} {f g f' g' : Nat → Expr} {numDims numSymbols numDims' numSymbols' : Nat}

/-- The map over a new domain, without the results that the substitution turns to 0. -/
def specialize? (numDims numSymbols : Nat) (f g : Nat → Expr) (m : IndexMap) : Option IndexMap :=
  (IndexMap.mk numDims numSymbols (m.results.map (·.substitute f g))).dropZeros?

theorem specialize?_eq_some_iff : m.specialize? numDims numSymbols f g = some m' ↔
    m' = ⟨numDims, numSymbols, (m.results.map (·.substitute f g)).filter (· ≠ .const 0)⟩ ∧
      m'.results ≠ [] :=
  dropZeros?_eq_some_iff

theorem specialize?_specialize? (hf : ∀ p, (f p).magnitude ≤ 2) (hg : ∀ p, (g p).magnitude ≤ 2)
    (hf' : ∀ p, (f' p).magnitude ≤ 2) (hg' : ∀ p, (g' p).magnitude ≤ 2)
    (hsmall : ∀ e ∈ m.results, e.IsSmall) :
    (m.specialize? numDims numSymbols f g).bind (specialize? numDims' numSymbols' f' g') =
      m.specialize? numDims' numSymbols' (fun p => (f p).substitute f' g')
        fun p => (g p).substitute f' g' := by
  have hresults : (((m.results.map (·.substitute f g)).filter (· ≠ .const 0)).map
      (·.substitute f' g')).filter (· ≠ .const 0) =
      (m.results.map (·.substitute (fun p => (f p).substitute f' g')
        fun p => (g p).substitute f' g')).filter (· ≠ .const 0) := by
    rw [Expr.filter_map_filter_ne_zero rfl, List.map_map]
    congr 1
    apply List.map_congr_left
    intro e he
    exact Expr.substitute_substitute hf hg hf' hg' (hsmall e he)
  -- If nothing is left after the first, nothing is left for the second.
  ext m'
  rw [Option.bind_eq_some_iff, specialize?_eq_some_iff, ← hresults]
  constructor
  · rintro ⟨n, hn, hm'⟩
    obtain ⟨rfl, -⟩ := specialize?_eq_some_iff.mp hn
    exact specialize?_eq_some_iff.mp hm'
  · rintro ⟨rfl, hne⟩
    refine ⟨_, specialize?_eq_some_iff.mpr ⟨rfl, ?_⟩, specialize?_eq_some_iff.mpr ⟨rfl, hne⟩⟩
    intro hnil
    apply hne
    simp only at hnil
    simp only [hnil, List.map_nil, List.filter_nil]

/-- What was replaced is gone before the projection could put 0 for it. -/
theorem projectDims_replace (h : m.InScope) {d : Nat} (hd : d < m.numDims) (c : Int64) :
    (m.replace (.dim d) (.const c)).projectDims [d] =
      ⟨m.numDims - 1, m.numSymbols, m.results.map (·.substitute (Expr.held .dim d c) .symbol)⟩ := by
  unfold projectDims replace
  simp only [countBelow_singleton_of_lt hd, List.map_map]
  congr 1
  apply List.map_congr_left
  intro e he
  have hold : (Expr.dim d).substitute (Expr.held .dim d c) .symbol = .const c := Expr.held_self .dim d c
  apply Expr.substitute_replace hold
  · exact fun p hne => Expr.held_of_ne (ne_of_apply_ne Expr.dim hne)
  · exact fun p _ => rfl
  · apply (inScope_iff.mp h e he).mono
    · exact fun p hp hne => Expr.projected_singleton_of_ne hp (ne_of_apply_ne Expr.dim hne)
    · exact fun p _ _ => rfl

theorem projectSymbols_replace (h : m.InScope) {s : Nat} (hs : s < m.numSymbols) (c : Int64) :
    (m.replace (.symbol s) (.const c)).projectSymbols [s] =
      ⟨m.numDims, m.numSymbols - 1, m.results.map (·.substitute .dim (Expr.held .symbol s c))⟩ := by
  unfold projectSymbols replace
  simp only [countBelow_singleton_of_lt hs, List.map_map]
  congr 1
  apply List.map_congr_left
  intro e he
  have hold : (Expr.symbol s).substitute .dim (Expr.held .symbol s c) = .const c :=
    Expr.held_self .symbol s c
  apply Expr.substitute_replace hold
  · exact fun p _ => rfl
  · exact fun p hne => Expr.held_of_ne (ne_of_apply_ne Expr.symbol hne)
  · apply (inScope_iff.mp h e he).mono
    · exact fun p _ _ => rfl
    · exact fun p hp hne => Expr.projected_singleton_of_ne hp (ne_of_apply_ne Expr.symbol hne)

theorem eliminateDim?_eq_specialize? (h : m.InScope) {d : Nat} (hd : d < m.numDims) :
    m.eliminateDim? d = m.specialize? (m.numDims - 1) m.numSymbols (Expr.held .dim d 0) .symbol := by
  rw [eliminateDim?, projectDims_replace h hd, specialize?]

theorem eliminateSymbol?_eq_specialize? (h : m.InScope) {s : Nat} (hs : s < m.numSymbols) :
    m.eliminateSymbol? s = m.specialize? m.numDims (m.numSymbols - 1) .dim (Expr.held .symbol s 1) := by
  rw [eliminateSymbol?, projectSymbols_replace h hs, specialize?]

end IndexMap
end AffineSearch
