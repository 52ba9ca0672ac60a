import AffineSearch.Proofs.Expr.Substitution
import AffineSearch.Proofs.Pattern.Folded
import AffineSearch.Proofs.Step.Elimination
import Mathlib.Data.List.Forall2

/-! What eliminations select of each operand. The results that stay keep their order and their values, and
what is left out is 0. A result that does not mention the variable is left out only if it was 0 before. -/
namespace AffineSearch

/-- Some members of a list have counterparts in the same order. The others are gone. -/
inductive Selects {α : Type} (Kept : α → α → Prop) (Gone : α → Prop) : List α → List α → Prop
  | nil : Selects Kept Gone [] []
  | kept {a b : α} {as bs : List α} : Kept a b → Selects Kept Gone as bs →
      Selects Kept Gone (a :: as) (b :: bs)
  | gone {a : α} {as bs : List α} : Gone a → Selects Kept Gone as bs → Selects Kept Gone (a :: as) bs

theorem selects_filter_map {α : Type} {Kept : α → α → Prop} {Gone : α → Prop} {f : α → α}
    {keeps : α → Bool} {as : List α} (hkept : ∀ a ∈ as, keeps (f a) = true → Kept a (f a))
    (hgone : ∀ a ∈ as, keeps (f a) = false → Gone a) : Selects Kept Gone as ((as.map f).filter keeps) := by
  induction as with
  | nil => exact .nil
  | cons a as ih =>
    have hrest := ih (fun b hb => hkept b (List.mem_cons_of_mem a hb))
      fun b hb => hgone b (List.mem_cons_of_mem a hb)
    rw [List.map_cons, List.filter_cons]
    split
    · next h => exact .kept (hkept a List.mem_cons_self h) hrest
    · next h => exact .gone (hgone a List.mem_cons_self (Bool.eq_false_of_not_eq_true h)) hrest

theorem forall₂_of_mapM_eq_some {α β : Type} {f : α → Option β} {l : List α} {l' : List β}
    (h : l.mapM f = some l') : List.Forall₂ (fun a b => f a = some b) l l' := by
  rwa [mapM_eq_some_iff, ← List.forall₂_eq_eq_eq, List.forall₂_map_left_iff,
    List.forall₂_map_right_iff] at h

theorem exists_mapM_eq_some_iff {α β : Type} {f : α → Option β} {l : List α} :
    (∃ l', l.mapM f = some l') ↔ ∀ a ∈ l, ∃ b, f a = some b := by
  induction l with
  | nil => simp
  | cons a l ih =>
    rw [List.forall_mem_cons, ← ih, List.mapM_cons]
    cases f a with
    | none => simp
    | some b => cases l.mapM f <;> simp

theorem Expr.value?_held {x : Point} {make : Nat → Expr} {y : Nat → Int} {c : Int64} {d : Nat}
    (hmake : ∀ p, (make p).value? x = some (y p)) (p : Nat) : (held make d c p).value? x =
      some (if p < d then y p else if p = d then c.toInt else y (p - 1)) := by
  unfold held
  split
  · exact hmake p
  · split
    · rfl
    · exact hmake (p - 1)

namespace IndexMap
variable {m m' : IndexMap} {f g : Nat → Expr} {numDims numSymbols : Nat} {back : Point → Point}

/-- Results stay with the values that they have where `back` leads, and the others are 0 there. -/
def KeepsValues (back : Point → Point) (m m' : IndexMap) : Prop :=
  Selects (fun e e' => ∀ x v, e.value? (back x) = some v → e'.value? x = some v)
    (fun e => ∀ x v, e.value? (back x) = some v → v = 0) m.results m'.results

/-- Results that do not use the variable stay as `lower` has them, and no others go than those in `Gone`. -/
def KeepsUnused (uses : Expr → Bool) (lower : Expr → Expr) (Gone : Expr → Prop) (m m' : IndexMap) : Prop :=
  Selects (fun e e' => uses e = false → e' = lower e) Gone m.results m'.results

theorem exists_specialize?_iff : (∃ m', m.specialize? numDims numSymbols f g = some m') ↔
    ∃ e ∈ m.results, e.substitute f g ≠ .const 0 := by
  simp only [specialize?_eq_some_iff, exists_eq_left, ne_eq, List.filter_eq_nil_iff, List.forall_mem_map,
    decide_eq_true_eq, not_forall, not_not, exists_prop]

theorem keepsValues_specialize? (hm : m.specialize? numDims numSymbols f g = some m')
    (hf : ∀ x p, (f p).value? x = some ((back x).dims p))
    (hg : ∀ x p, (g p).value? x = some ((back x).symbols p)) : m.KeepsValues back m' := by
  obtain ⟨rfl, -⟩ := specialize?_eq_some_iff.mp hm
  have hvalue : ∀ (e : Expr) x v, e.value? (back x) = some v → (e.substitute f g).value? x = some v :=
    fun e x v => Expr.value?_substitute (Expr.varsIn_of_forall (hf x) (hg x))
  apply selects_filter_map
  · exact fun e _ _ => hvalue e
  · intro e _ hzero x v hv
    have hconst : e.substitute f g = .const 0 := by simpa using hzero
    have hx := hvalue e x v hv
    rw [hconst] at hx
    exact (Option.some.inj hx).symm

/-- What goes reads 0. If it does not use the variable, it is 0 itself. -/
theorem keepsUnused_specialize? {uses : Expr → Bool} {lower pinned : Expr → Expr}
    (hm : m.specialize? numDims numSymbols f g = some m')
    (hkept : ∀ e ∈ m.results, uses e = false → e.substitute f g = lower e)
    (hlower : ∀ e, lower e = .const 0 ↔ e = .const 0)
    (hpinned : ∀ e, e.substitute f g = .const 0 ↔ pinned e = .const 0) :
    m.KeepsUnused uses lower (fun e => e = .const 0 ∨ uses e = true ∧ pinned e = .const 0) m' ∧
      (m.results.any uses = false → m'.results = (m.results.filter (· ≠ .const 0)).map lower) := by
  obtain ⟨rfl, -⟩ := specialize?_eq_some_iff.mp hm
  constructor
  · apply selects_filter_map
    · exact fun e he _ => hkept e he
    · intro e he hzero
      have hconst : e.substitute f g = .const 0 := by simpa using hzero
      cases huses : uses e with
      | true => exact Or.inr ⟨rfl, (hpinned e).mp hconst⟩
      | false =>
        rw [hkept e he huses] at hconst
        exact Or.inl ((hlower e).mp hconst)
  · intro hunused
    have hall : ∀ e ∈ m.results, e.substitute f g = lower e := fun e he =>
      hkept e he (Bool.eq_false_of_not_eq_true (List.any_eq_false.mp hunused e he))
    simp only [List.map_congr_left hall, List.filter_map]
    congr 1
    apply List.filter_congr
    intro e _
    simp [hlower e]

end IndexMap

namespace Step
variable {s : Step} {p q : Pattern}

/-- What an elimination puts for a variable has the value of the variable in front of it. -/
theorem IsElimination.value?_dimsTo (hs : s.IsElimination) (numDims : Nat) (x : Point) (p : Nat) :
    (s.dimsTo p).value? x = some ((s.pullBack numDims x).dims p) := by
  cases s with
  | unroll d => exact Expr.value?_held (fun p => rfl) p
  | dropSymbol s => rfl
  | mergeDims d1 d2 => exact hs.elim
  | permute i j mask => exact hs.elim
  | expand kind mask => exact hs.elim
  | decompose position => exact hs.elim

theorem IsElimination.value?_symbolsTo (hs : s.IsElimination) (numDims : Nat) (x : Point) (p : Nat) :
    (s.symbolsTo p).value? x = some ((s.pullBack numDims x).symbols p) := by
  cases s with
  | unroll d => rfl
  | dropSymbol s => exact Expr.value?_held (fun p => rfl) p
  | mergeDims d1 d2 => exact hs.elim
  | permute i j mask => exact hs.elim
  | expand kind mask => exact hs.elim
  | decompose position => exact hs.elim

theorem keepsValues_onMap? {numDims numSymbols operand : Nat} {m m' : IndexMap} (hs : s.IsElimination)
    (h : m.Over numDims numSymbols) (hown : s.RemovesOwn numDims numSymbols)
    (hm : s.onMap? numDims operand m = some m') : m.KeepsValues (s.pullBack numDims) m' := by
  rw [onMap?_eq_specialize? hs h hown] at hm
  exact IndexMap.keepsValues_specialize? hm (hs.value?_dimsTo numDims) (hs.value?_symbolsTo numDims)

theorem exists_perform?_iff (hs : s.IsElimination) (hp : p.WellFormed) :
    (∃ q, s.perform? p = some q) ↔ s.RemovesOwn p.numDims p.numSymbols ∧
      ∀ m ∈ p.maps, ∃ e ∈ m.results, e.substitute s.dimsTo s.symbolsTo ≠ .const 0 := by
  have hmap : s.RemovesOwn p.numDims p.numSymbols → ∀ m ∈ p.maps,
      ((∃ m', s.onMap? p.numDims 0 m = some m') ↔
        ∃ e ∈ m.results, e.substitute s.dimsTo s.symbolsTo ≠ .const 0) := by
    intro hown m hm
    rw [onMap?_eq_specialize? hs (hp.over hm) hown, IndexMap.exists_specialize?_iff]
  constructor
  · rintro ⟨q, hq⟩
    obtain ⟨hown, hmaps, -⟩ := (Pattern.perform?_eq_some_iff hs).mp hq
    have hex := exists_mapM_eq_some_iff.mp ⟨q.maps, hmaps⟩
    exact ⟨hown, fun m hm => (hmap hown m hm).mp (hex m hm)⟩
  · rintro ⟨hown, hleft⟩
    obtain ⟨maps, hmaps⟩ := exists_mapM_eq_some_iff.mpr fun m hm => (hmap hown m hm).mpr (hleft m hm)
    exact ⟨⟨maps, s.onKinds p.kinds⟩, (Pattern.perform?_eq_some_iff hs).mpr ⟨hown, hmaps, rfl⟩⟩

theorem forall₂_onMap? (hs : s.IsElimination) (h : s.perform? p = some q) :
    s.RemovesOwn p.numDims p.numSymbols ∧
      List.Forall₂ (fun m m' => m ∈ p.maps ∧ s.onMap? p.numDims 0 m = some m') p.maps q.maps := by
  obtain ⟨hown, hmaps, -⟩ := (Pattern.perform?_eq_some_iff hs).mp h
  exact ⟨hown, (List.forall₂_and_left _ _).mpr ⟨fun m hm => hm, forall₂_of_mapM_eq_some hmaps⟩⟩

theorem keepsValues_of_perform? (hs : s.IsElimination) (hp : p.WellFormed) (h : s.perform? p = some q) :
    q.kinds = s.onKinds p.kinds ∧
      List.Forall₂ (IndexMap.KeepsValues (s.pullBack p.numDims)) p.maps q.maps := by
  obtain ⟨hown, hmaps⟩ := forall₂_onMap? hs h
  refine ⟨((Pattern.perform?_eq_some_iff hs).mp h).2.2, hmaps.imp ?_⟩
  intro m m' ⟨hm, hon⟩
  exact keepsValues_onMap? hs (hp.over hm) hown hon

theorem keepsUnused_of_perform? {uses : Expr → Bool} {lower pinned : Expr → Expr} (hs : s.IsElimination)
    (hp : p.WellFormed) (hfolded : p.IsFolded) (h : s.perform? p = some q)
    (hkept : ∀ e : Expr, e.RedexFree → uses e = false → e.substitute s.dimsTo s.symbolsTo = lower e)
    (hlower : ∀ e, lower e = .const 0 ↔ e = .const 0)
    (hpinned : ∀ e, e.substitute s.dimsTo s.symbolsTo = .const 0 ↔ pinned e = .const 0) :
    List.Forall₂ (fun m m' =>
      m.KeepsUnused uses lower (fun e => e = .const 0 ∨ uses e = true ∧ pinned e = .const 0) m' ∧
      (m.results.any uses = false → m'.results = (m.results.filter (· ≠ .const 0)).map lower))
      p.maps q.maps := by
  obtain ⟨hown, hmaps⟩ := forall₂_onMap? hs h
  apply hmaps.imp
  intro m m' ⟨hm, hon⟩
  rw [onMap?_eq_specialize? hs (hp.over hm) hown] at hon
  refine IndexMap.keepsUnused_specialize? hon ?_ hlower hpinned
  intro e he
  have hfree : e.RedexFree := Expr.isFolded_iff_redexFree.mp (hfolded m hm e he)
  exact hkept e hfree

end Step

namespace Pattern
variable {p q : Pattern}

/-- To unroll a dimension is to read the pattern where it is 0, and to drop a symbol is to read it where it
is 1. Both apply unless an operand would fold to nothing but zeros. -/
theorem eliminations_keep_values (hp : p.WellFormed) :
    (∀ d : Nat,
      ((∃ q, p.unroll? d = some q) ↔ d < p.numDims ∧
        ∀ m ∈ p.maps, ∃ e ∈ m.results, e.replace (.dim d) (.const 0) ≠ .const 0) ∧
      ∀ q, p.unroll? d = some q → q.kinds = p.kinds.eraseIdx d ∧
        List.Forall₂ (IndexMap.KeepsValues (·.insertDim d 0)) p.maps q.maps) ∧
    ∀ s : Nat,
      ((∃ q, p.dropSymbol? s = some q) ↔ s < p.numSymbols ∧
        ∀ m ∈ p.maps, ∃ e ∈ m.results, e.replace (.symbol s) (.const 1) ≠ .const 0) ∧
      ∀ q, p.dropSymbol? s = some q → q.kinds = p.kinds ∧
        List.Forall₂ (IndexMap.KeepsValues (·.insertSymbol s 1)) p.maps q.maps := by
  constructor
  · intro d
    have hs : (Step.unroll d).IsElimination := trivial
    refine ⟨?_, fun q hq => Step.keepsValues_of_perform? hs hp hq⟩
    simp only [ne_eq, ← Expr.substitute_held_dim_eq_const_iff]
    exact Step.exists_perform?_iff hs hp
  · intro s
    have hs : (Step.dropSymbol s).IsElimination := trivial
    refine ⟨?_, fun q hq => Step.keepsValues_of_perform? hs hp hq⟩
    simp only [ne_eq, ← Expr.substitute_held_symbol_eq_const_iff]
    exact Step.exists_perform?_iff hs hp

/-- A window read at `d0 * s0 + d1`: its second result goes with `d1`. Dimension `d0` has to stay, since it
is all that the output has. -/
theorem eliminations_keep_values_pooling :
    let scaled : Expr := .binary .mul (.dim 0) (.symbol 0)
    let p : Pattern := ⟨[⟨2, 1, [.binary .add scaled (.dim 1), .dim 1]⟩, ⟨2, 1, [.dim 0]⟩],
      [.parallel, .reduction]⟩
    let q : Pattern := ⟨[⟨1, 1, [scaled]⟩, ⟨1, 1, [.dim 0]⟩], [.parallel]⟩
    let r : Pattern := ⟨[⟨2, 0, [.binary .add (.dim 0) (.dim 1), .dim 1]⟩, ⟨2, 0, [.dim 0]⟩],
      [.parallel, .reduction]⟩
    p.WellFormed ∧
      (p.unroll? 1 = some q ∧ List.Forall₂ (IndexMap.KeepsValues (·.insertDim 1 0)) p.maps q.maps) ∧
      (p.dropSymbol? 0 = some r ∧ List.Forall₂ (IndexMap.KeepsValues (·.insertSymbol 0 1)) p.maps r.maps) ∧
      ¬∃ q, p.unroll? 0 = some q := by
  intro scaled p q r
  have hp : p.WellFormed := by decide
  have hq : p.unroll? 1 = some q := by decide +kernel
  have hr : p.dropSymbol? 0 = some r := by decide +kernel
  have hzero : ¬∀ m ∈ p.maps, ∃ e ∈ m.results, e.replace (.dim 0) (.const 0) ≠ .const 0 := by
    decide +kernel
  obtain ⟨hdims, hsymbols⟩ := eliminations_keep_values hp
  refine ⟨hp, ⟨hq, ((hdims 1).2 q hq).2⟩, ⟨hr, ((hsymbols 0).2 r hr).2⟩, ?_⟩
  intro hex
  exact hzero ((hdims 0).1.mp hex).2

/-- An elimination leaves out what folds to 0. Of the results that do not mention the variable these are the
constant 0 alone, and all others stay in their order, renumbered. -/
theorem eliminations_keep_unused (hp : p.WellFormed) (hfolded : p.IsFolded) :
    (∀ d q, p.unroll? d = some q → List.Forall₂ (fun m m' =>
      m.KeepsUnused (·.mentionsDim d) (·.lowerDims d) (fun e =>
        e = .const 0 ∨ e.mentionsDim d = true ∧ e.replace (.dim d) (.const 0) = .const 0) m' ∧
      (m.mentionsDim d = false → m'.results = (m.results.filter (· ≠ .const 0)).map (·.lowerDims d)))
      p.maps q.maps) ∧
    ∀ s q, p.dropSymbol? s = some q → List.Forall₂ (fun m m' =>
      m.KeepsUnused (·.mentionsSymbol s) (·.lowerSymbols s) (fun e =>
        e = .const 0 ∨ e.mentionsSymbol s = true ∧ e.replace (.symbol s) (.const 1) = .const 0) m' ∧
      (m.mentionsSymbol s = false →
        m'.results = (m.results.filter (· ≠ .const 0)).map (·.lowerSymbols s))) p.maps q.maps := by
  constructor
  · intro d q hq
    have hs : (Step.unroll d).IsElimination := trivial
    apply Step.keepsUnused_of_perform? hs hp hfolded hq
    · exact fun e he => he.substitute_held_dim
    · exact fun e => Expr.rename_eq_const_iff
    · exact fun e => Expr.substitute_held_dim_eq_const_iff
  · intro s q hq
    have hs : (Step.dropSymbol s).IsElimination := trivial
    apply Step.keepsUnused_of_perform? hs hp hfolded hq
    · exact fun e he => he.substitute_held_symbol
    · exact fun e => Expr.rename_eq_const_iff
    · exact fun e => Expr.substitute_held_symbol_eq_const_iff

/-- A row that is read along all columns, and a table that it is combined with. -/
def broadcast : Pattern := ⟨[⟨2, 0, [.dim 0, .const 0]⟩, ⟨2, 0, [.dim 0, .dim 1]⟩], [.parallel, .parallel]⟩

theorem eliminations_keep_unused_broadcast :
    let q : Pattern := ⟨[⟨1, 0, [.dim 0]⟩, ⟨1, 0, [.dim 0]⟩], [.parallel]⟩
    broadcast.WellFormed ∧ broadcast.IsFolded ∧ broadcast.unroll? 1 = some q ∧
      List.Forall₂ (fun m m' => m.KeepsUnused (·.mentionsDim 1) (·.lowerDims 1) (fun e =>
        e = .const 0 ∨ e.mentionsDim 1 = true ∧ e.replace (.dim 1) (.const 0) = .const 0) m')
        broadcast.maps q.maps := by
  intro q
  have hp : broadcast.WellFormed := by decide
  have hfolded : broadcast.IsFolded := by decide
  have hq : broadcast.unroll? 1 = some q := by decide +kernel
  have hmaps := (eliminations_keep_unused hp hfolded).1 1 q hq
  exact ⟨hp, hfolded, hq, hmaps.imp fun m m' h => h.1⟩

/-- The row does not mention the dimension and loses a result nevertheless, the 0 that was there before. -/
theorem unroll?_drops_unused_zero :
    let row : IndexMap := ⟨2, 0, [.dim 0, .const 0]⟩
    let row' : IndexMap := ⟨1, 0, [.dim 0]⟩
    let q : Pattern := ⟨[row', ⟨1, 0, [.dim 0]⟩], [.parallel]⟩
    broadcast.WellFormed ∧ broadcast.IsFolded ∧ broadcast.unroll? 1 = some q ∧
      broadcast.maps[0]? = some row ∧ q.maps[0]? = some row' ∧ row.mentionsDim 1 = false ∧
      row'.numResults < row.numResults ∧
      ¬row.KeepsUnused (·.mentionsDim 1) (·.lowerDims 1) (fun e =>
        e.mentionsDim 1 = true ∧ e.replace (.dim 1) (.const 0) = .const 0) row' := by
  intro row row' q
  have hq : broadcast.unroll? 1 = some q := by decide +kernel
  refine ⟨by decide, by decide, hq, rfl, rfl, by decide, by decide, ?_⟩
  intro h
  cases h with
  | kept _ hrest =>
    cases hrest with
    | gone hzero _ => cases hzero.1
  | gone hdim _ => cases hdim.1

end Pattern
end AffineSearch
