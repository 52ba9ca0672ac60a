import AffineSearch.Proofs.Step.Elimination

/-! Two eliminations in either order. What they do to each map is one specialization, the same for both
orders. -/
namespace AffineSearch

theorem mapM_bind_mapM {α β γ : Type} (f : α → Option β) (g : β → Option γ) (l : List α) :
    (l.mapM f).bind (·.mapM g) = l.mapM fun a => (f a).bind g := by
  induction l with
  | nil => rfl
  | cons a l ih =>
    rw [List.mapM_cons, List.mapM_cons, ← ih]
    cases f a with
    | none => rfl
    | some b =>
      cases l.mapM f with
      | none => cases hg : g b <;> simp [hg]
      | some bs => simp [List.mapM_cons]

theorem eraseIdx_eraseIdx {α : Type} (l : List α) {i k : Nat} (h : i ≤ k) :
    (l.eraseIdx i).eraseIdx k = (l.eraseIdx (k + 1)).eraseIdx i := by
  induction l generalizing i k with
  | nil => rfl
  | cons a l ih =>
    cases i with
    | zero => rfl
    | succ i =>
      cases k with
      | zero => cases h
      | succ k => exact congrArg (a :: ·) (ih (Nat.le_of_succ_le_succ h))

namespace Step
variable {s t : Step} {numDims numSymbols : Nat} {m : IndexMap}

/-- The one specialization that two eliminations amount to. -/
def specializeTwice? (numDims numSymbols : Nat) (s t : Step) : IndexMap → Option IndexMap :=
  IndexMap.specialize? (t.dimsAfter (s.dimsAfter numDims)) (t.symbolsAfter (s.symbolsAfter numSymbols))
    (fun p => (s.dimsTo p).substitute t.dimsTo t.symbolsTo)
    fun p => (s.symbolsTo p).substitute t.dimsTo t.symbolsTo

theorem onMap?_onMap? (hs : s.IsElimination) (ht : t.IsElimination) (h : m.Over numDims numSymbols)
    (hsown : s.RemovesOwn numDims numSymbols)
    (htown : t.RemovesOwn (s.dimsAfter numDims) (s.symbolsAfter numSymbols))
    (hsmall : ∀ e ∈ m.results, e.IsSmall) (operand : Nat) :
    (s.onMap? numDims operand m).bind (t.onMap? (s.dimsAfter numDims) operand) =
      specializeTwice? numDims numSymbols s t m := by
  have hfirst := onMap?_eq_specialize? hs h hsown operand
  have hsecond : ∀ m', s.onMap? numDims operand m = some m' →
      t.onMap? (s.dimsAfter numDims) operand m' = m'.specialize? (t.dimsAfter (s.dimsAfter numDims))
        (t.symbolsAfter (s.symbolsAfter numSymbols)) t.dimsTo t.symbolsTo := by
    intro m' hm'
    exact onMap?_eq_specialize? ht (over_of_onMap? h hsown hm').1 htown operand
  rw [Option.bind_congr hsecond, hfirst]
  exact IndexMap.specialize?_specialize? s.magnitude_dimsTo_le s.magnitude_symbolsTo_le
    t.magnitude_dimsTo_le t.magnitude_symbolsTo_le hsmall

theorem specializeTwice?_unroll {i j : Nat} (h : i < j) :
    specializeTwice? numDims numSymbols (unroll i) (unroll (j - 1)) =
      specializeTwice? numDims numSymbols (unroll j) (unroll i) := by
  have hdims : ∀ p, (Expr.held .dim i 0 p).substitute (Expr.held .dim (j - 1) 0) .symbol =
      (Expr.held .dim j 0 p).substitute (Expr.held .dim i 0) .symbol := by
    intro p
    rw [Expr.substitute_held, Expr.substitute_held]
    exact congrFun (Expr.held_held .dim 0 h) p
  exact congrArg (IndexMap.specialize? (numDims - 1 - 1) numSymbols · .symbol) (funext hdims)

theorem specializeTwice?_dropSymbol {i j : Nat} (h : i < j) :
    specializeTwice? numDims numSymbols (dropSymbol i) (dropSymbol (j - 1)) =
      specializeTwice? numDims numSymbols (dropSymbol j) (dropSymbol i) := by
  have hsymbols : ∀ p, (Expr.held .symbol i 1 p).substitute .dim (Expr.held .symbol (j - 1) 1) =
      (Expr.held .symbol j 1 p).substitute .dim (Expr.held .symbol i 1) := by
    intro p
    rw [Expr.substitute_held, Expr.substitute_held]
    exact congrFun (Expr.held_held .symbol 1 h) p
  exact congrArg (IndexMap.specialize? numDims (numSymbols - 1 - 1) .dim ·) (funext hsymbols)

theorem specializeTwice?_unroll_dropSymbol (d k : Nat) :
    specializeTwice? numDims numSymbols (unroll d) (dropSymbol k) =
      specializeTwice? numDims numSymbols (dropSymbol k) (unroll d) := by
  have hdims : ∀ p, (Expr.held .dim d 0 p).substitute .dim (Expr.held .symbol k 1) = Expr.held .dim d 0 p :=
    Expr.substitute_held .dim (Expr.held .symbol k 1)
  have hsymbols : ∀ p, (Expr.held .symbol k 1 p).substitute (Expr.held .dim d 0) .symbol =
      Expr.held .symbol k 1 p :=
    Expr.substitute_held (Expr.held .dim d 0) .symbol
  exact congrArg₂ (IndexMap.specialize? (numDims - 1) (numSymbols - 1)) (funext hdims)
    (funext hsymbols).symm

end Step

namespace Pattern
variable {p q : Pattern} {s t s' t' : Step}

theorem replay?_pair_eq_some_iff (hs : s.IsElimination) (ht : t.IsElimination) (hp : p.WellFormed)
    (hsmall : ∀ m ∈ p.maps, ∀ e ∈ m.results, e.IsSmall) : p.replay? [s, t] = some q ↔
      (s.RemovesOwn p.numDims p.numSymbols ∧
        t.RemovesOwn (s.dimsAfter p.numDims) (s.symbolsAfter p.numSymbols)) ∧
      p.maps.mapM (s.specializeTwice? p.numDims p.numSymbols t) = some q.maps ∧
      q.kinds = t.onKinds (s.onKinds p.kinds) := by
  -- A map that the first step refuses is refused by both steps together, so all maps may take both at once.
  have hmaps : s.RemovesOwn p.numDims p.numSymbols →
      t.RemovesOwn (s.dimsAfter p.numDims) (s.symbolsAfter p.numSymbols) →
      p.maps.mapM (s.specializeTwice? p.numDims p.numSymbols t) =
        (p.maps.mapM (s.onMap? p.numDims 0)).bind (·.mapM (t.onMap? (s.dimsAfter p.numDims) 0)) := by
    intro hsown htown
    rw [mapM_bind_mapM]
    apply mapM_congr
    intro m hm
    exact (Step.onMap?_onMap? hs ht (hp.over hm) hsown htown (hsmall m hm) 0).symm
  constructor
  · intro h
    obtain ⟨r, hr, hrest⟩ := Option.bind_eq_some_iff.mp h
    obtain ⟨q', hq, hnil⟩ := Option.bind_eq_some_iff.mp hrest
    obtain rfl : q' = q := Option.some.inj hnil
    have heffect := Step.effect_of_perform? hr
    obtain ⟨hsown, hfirst, hskinds⟩ := (perform?_eq_some_iff hs).mp hr
    obtain ⟨htown, hsecond, htkinds⟩ := (perform?_eq_some_iff ht).mp hq
    rw [heffect.numDims_eq, heffect.numSymbols_eq hp] at htown
    rw [heffect.numDims_eq] at hsecond
    refine ⟨⟨hsown, htown⟩, ?_, hskinds ▸ htkinds⟩
    rw [hmaps hsown htown, hfirst]
    exact hsecond
  · rintro ⟨⟨hsown, htown⟩, hboth, hkinds⟩
    rw [hmaps hsown htown] at hboth
    obtain ⟨maps, hfirst, hsecond⟩ := Option.bind_eq_some_iff.mp hboth
    have hr : s.perform? p = some ⟨maps, s.onKinds p.kinds⟩ :=
      (perform?_eq_some_iff hs).mpr ⟨hsown, hfirst, rfl⟩
    have heffect := Step.effect_of_perform? hr
    have hq : t.perform? ⟨maps, s.onKinds p.kinds⟩ = some q := by
      rw [perform?_eq_some_iff ht, heffect.numDims_eq, heffect.numSymbols_eq hp]
      exact ⟨htown, hsecond, hkinds⟩
    refine Option.bind_eq_some_iff.mpr ⟨_, hr, ?_⟩
    exact Option.bind_eq_some_iff.mpr ⟨q, hq, rfl⟩

/-- Two pairs of eliminations do the same that remove the same variables and substitute the same. -/
theorem replay?_pair_congr (hs : s.IsElimination) (ht : t.IsElimination) (hs' : s'.IsElimination)
    (ht' : t'.IsElimination) (hp : p.WellFormed) (hsmall : ∀ m ∈ p.maps, ∀ e ∈ m.results, e.IsSmall)
    (hown : (s.RemovesOwn p.numDims p.numSymbols ∧
        t.RemovesOwn (s.dimsAfter p.numDims) (s.symbolsAfter p.numSymbols)) ↔
      s'.RemovesOwn p.numDims p.numSymbols ∧
        t'.RemovesOwn (s'.dimsAfter p.numDims) (s'.symbolsAfter p.numSymbols))
    (hmaps : s.specializeTwice? p.numDims p.numSymbols t = s'.specializeTwice? p.numDims p.numSymbols t')
    (hkinds : t.onKinds (s.onKinds p.kinds) = t'.onKinds (s'.onKinds p.kinds)) :
    p.replay? [s, t] = p.replay? [s', t'] := by
  ext q
  rw [replay?_pair_eq_some_iff hs ht hp hsmall, replay?_pair_eq_some_iff hs' ht' hp hsmall, hown, hmaps,
    hkinds]

/-- Where the constants are small, it does not matter which of two variables is eliminated first. Above an
eliminated variable the others count one less. -/
theorem replay?_eliminations_comm (hp : p.WellFormed)
    (hsmall : ∀ m ∈ p.maps, ∀ e ∈ m.results, e.HasSmallConstants) :
    (∀ i j, i < j → p.replay? [.unroll i, .unroll (j - 1)] = p.replay? [.unroll j, .unroll i]) ∧
      (∀ s t, s < t →
        p.replay? [.dropSymbol s, .dropSymbol (t - 1)] = p.replay? [.dropSymbol t, .dropSymbol s]) ∧
      ∀ d s, p.replay? [.unroll d, .dropSymbol s] = p.replay? [.dropSymbol s, .unroll d] := by
  have hsmall : ∀ m ∈ p.maps, ∀ e ∈ m.results, e.IsSmall := fun m hm e he => (hsmall m hm e he).isSmall
  refine ⟨?_, ?_, ?_⟩
  · intro i j hij
    have hown : i < p.numDims ∧ j - 1 < p.numDims - 1 ↔ j < p.numDims ∧ i < p.numDims - 1 := by omega
    have hkinds : (p.kinds.eraseIdx i).eraseIdx (j - 1) = (p.kinds.eraseIdx j).eraseIdx i := by
      rw [eraseIdx_eraseIdx _ (Nat.le_sub_one_of_lt hij), Nat.sub_add_cancel (Nat.one_le_of_lt hij)]
    exact replay?_pair_congr trivial trivial trivial trivial hp hsmall hown
      (Step.specializeTwice?_unroll hij) hkinds
  · intro s t hst
    have hown : s < p.numSymbols ∧ t - 1 < p.numSymbols - 1 ↔ t < p.numSymbols ∧ s < p.numSymbols - 1 := by
      omega
    exact replay?_pair_congr trivial trivial trivial trivial hp hsmall hown
      (Step.specializeTwice?_dropSymbol hst) rfl
  · intro d s
    have hown : d < p.numDims ∧ s < p.numSymbols ↔ s < p.numSymbols ∧ d < p.numDims := and_comm
    exact replay?_pair_congr trivial trivial trivial trivial hp hsmall hown
      (Step.specializeTwice?_unroll_dropSymbol d s) rfl

/-- Without both dimensions the second operand would have no results left. -/
theorem replay?_eliminations_comm_strided :
    let p : Pattern := ⟨[⟨2, 2, [.binary .add (.binary .mul (.dim 0) (.symbol 0))
      (.binary .add (.binary .mul (.dim 1) (.symbol 1)) (.const 3))]⟩, ⟨2, 2, [.dim 0, .dim 1]⟩],
      [.parallel, .reduction]⟩
    let q : Pattern := ⟨[⟨1, 1, [.binary .add (.dim 0) (.const 3)]⟩, ⟨1, 1, [.dim 0]⟩], [.reduction]⟩
    p.WellFormed ∧ (∀ m ∈ p.maps, ∀ e ∈ m.results, e.HasSmallConstants) ∧
      p.replay? [.unroll 0, .dropSymbol 1] = some q ∧ p.replay? [.dropSymbol 1, .unroll 0] = some q ∧
      p.replay? [.unroll 0, .unroll 0] = none ∧ p.replay? [.unroll 1, .unroll 0] = none := by
  intro p q
  have hp : p.WellFormed := by decide
  have hsmall : ∀ m ∈ p.maps, ∀ e ∈ m.results, e.HasSmallConstants := by
    have hleaves : ∀ m ∈ p.maps, ∀ e ∈ m.results, e.numLeaves ≤ 5 := by decide
    have hconst : ∀ m ∈ p.maps, ∀ e ∈ m.results, ∀ n ∈ e.nodes, n.const? = none ∨ n = .const 3 := by
      decide
    intro m hm e he
    refine ⟨3, by decide, ?_, ?_⟩
    · intro c hc
      rcases hconst m hm e he _ hc with hnone | heq
      · cases hnone
      · cases heq
        decide
    · calc 3 ^ e.numLeaves ≤ 3 ^ 5 := Nat.pow_le_pow_right (by decide) (hleaves m hm e he)
        _ < 0x8000000000000000 := by decide
  have hq : p.replay? [.unroll 0, .dropSymbol 1] = some q := by decide +kernel
  have hnone : p.replay? [.unroll 0, .unroll 0] = none := by decide +kernel
  obtain ⟨hdims, -, hmixed⟩ := replay?_eliminations_comm hp hsmall
  exact ⟨hp, hsmall, hq, (hmixed 0 1).symm.trans hq, hnone, (hdims 0 1 Nat.one_pos).symm.trans hnone⟩

end Pattern
end AffineSearch
