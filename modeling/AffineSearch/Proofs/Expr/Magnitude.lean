import AffineSearch.Proofs.Expr.Combine
import Mathlib.Algebra.Order.Ring.Nat

/-! The constants that folding can arrive at are bounded by the product of the leaves. Where that product is
a word, no fold is held up by an overflow and their order does not matter. -/
namespace AffineSearch

theorem Word.natAbs_fdiv_le {m n : Int} (hn : n ≠ 0) : (m.fdiv n).natAbs ≤ m.natAbs := by
  have hdiv : (m.tdiv n).natAbs = m.natAbs / n.natAbs := Int.natAbs_tdiv m n
  have hle : m.natAbs / n.natAbs ≤ m.natAbs := Nat.div_le_self _ _
  rw [fdiv_eq_tdiv_add hn]
  split
  · next h =>
    have hhalf := natAbs_tdiv_of_inexact h.1 hn
    have hpos : m ≠ 0 := by
      rintro rfl
      exact h.1 (Int.zero_tmod n)
    omega
  · omega

theorem Op.natAbs_value?_le {op : Op} {a b v : Int} (h : op.value? a b = some v) :
    max 2 v.natAbs ≤ max 2 a.natAbs * max 2 b.natAbs := by
  have ha : 2 * max 2 b.natAbs ≤ max 2 a.natAbs * max 2 b.natAbs :=
    Nat.mul_le_mul_right _ (Nat.le_max_left _ _)
  have hb : max 2 a.natAbs * 2 ≤ max 2 a.natAbs * max 2 b.natAbs :=
    Nat.mul_le_mul_left _ (Nat.le_max_left _ _)
  cases op with
  | add =>
    obtain rfl : a + b = v := Option.some.inj h
    omega
  | mul =>
    obtain rfl : a * b = v := Option.some.inj h
    have hab : a.natAbs * b.natAbs ≤ max 2 a.natAbs * max 2 b.natAbs :=
      Nat.mul_le_mul (Nat.le_max_right _ _) (Nat.le_max_right _ _)
    rw [Int.natAbs_mul]
    omega
  | mod =>
    simp only [value?] at h
    split at h
    · next hpos =>
      have hlo := Int.emod_nonneg a (Int.ne_of_gt hpos)
      have hhi := Int.emod_lt_of_pos a hpos
      obtain rfl : a % b = v := Option.some.inj h
      omega
    · cases h
  | floorDiv =>
    simp only [value?] at h
    split at h
    · cases h
    · next hne =>
      have hle := Word.natAbs_fdiv_le (m := a) hne
      obtain rfl : a.fdiv b = v := Option.some.inj h
      omega
  | ceilDiv =>
    simp only [value?] at h
    split at h
    · cases h
    · next hne =>
      have hle := Word.natAbs_fdiv_le (m := -a) hne
      obtain rfl : -(-a).fdiv b = v := Option.some.inj h
      omega

namespace Expr
variable {op : Op} {e e' l r y : Expr} {a b c w : Int64}

/-- No variable and no constant counts less than 2, so no sum of leaves exceeds their product. -/
def magnitude : Expr → Nat
  | dim _ | symbol _ => 2
  | const c => max 2 c.toInt.natAbs
  | binary _ l r => l.magnitude * r.magnitude

theorem magnitude_dim_le (p : Nat) : (dim p).magnitude ≤ 2 := Nat.le_refl 2

theorem magnitude_symbol_le (p : Nat) : (symbol p).magnitude ≤ 2 := Nat.le_refl 2

theorem two_le_magnitude (e : Expr) : 2 ≤ e.magnitude := by
  induction e with
  | dim p => exact Nat.le_refl 2
  | symbol p => exact Nat.le_refl 2
  | const c => exact Nat.le_max_left 2 _
  | binary op l r hl hr => exact hl.trans (Nat.le_mul_of_pos_right _ (by omega))

theorem magnitude_le_left (op : Op) (l r : Expr) : l.magnitude ≤ (binary op l r).magnitude :=
  Nat.le_mul_of_pos_right _ (Nat.lt_of_lt_of_le Nat.two_pos r.two_le_magnitude)

theorem magnitude_le_right (op : Op) (l r : Expr) : r.magnitude ≤ (binary op l r).magnitude :=
  Nat.le_mul_of_pos_left _ (Nat.lt_of_lt_of_le Nat.two_pos l.two_le_magnitude)

theorem magnitude_onWords?_le (h : op.onWords? a b = some w) :
    (const w).magnitude ≤ (const a).magnitude * (const b).magnitude :=
  Op.natAbs_value?_le (Op.onWords?_eq_some_iff.mp h)

theorem Rewrites.magnitude_le (h : Rewrites e e') : e'.magnitude ≤ e.magnitude := by
  induction h with
  | refl => exact Nat.le_refl _
  | trans _ _ ih ih' => exact ih'.trans ih
  | constants hw => exact magnitude_onWords?_le hw
  | neutral _ => exact magnitude_le_left _ _ _
  | @absorbing op l c w hop =>
    have hw : (const w).magnitude ≤ 2 * (const c).magnitude := Op.natAbs_value?_le (hop 0)
    exact hw.trans (Nat.mul_le_mul_right _ l.two_le_magnitude)
  | swapped _ => exact Nat.le_of_eq (Nat.mul_comm _ _)
  | @regrouped op l a b w _ hw =>
    have hle := Nat.mul_le_mul_left l.magnitude (magnitude_onWords?_le hw)
    rw [← Nat.mul_assoc] at hle
    exact hle

theorem magnitude_combine_le (op : Op) (l r : Expr) :
    (combine op l r).magnitude ≤ l.magnitude * r.magnitude :=
  (rewrites_combine op l r).magnitude_le

/-- Only leaves are this small. -/
theorem redexFree_of_magnitude_le_two (h : e.magnitude ≤ 2) : e.RedexFree := by
  cases e with
  | dim p => trivial
  | symbol p => trivial
  | const c => trivial
  | binary op l r =>
    have hle := Nat.mul_le_mul l.two_le_magnitude r.two_le_magnitude
    simp only [magnitude] at h
    omega

/-- The product of the leaves is a word. -/
def IsSmall (e : Expr) : Prop := e.magnitude < 0x8000000000000000

theorem IsSmall.of_le (h : e.IsSmall) (hle : e'.magnitude ≤ e.magnitude) : e'.IsSmall :=
  Nat.lt_of_le_of_lt hle h

theorem IsSmall.left (h : (binary op l r).IsSmall) : l.IsSmall := h.of_le (magnitude_le_left op l r)

theorem IsSmall.right (h : (binary op l r).IsSmall) : r.IsSmall := h.of_le (magnitude_le_right op l r)

theorem IsSmall.exists_onWords? (hop : op.IsRing) (h : (binary op (const a) (const b)).IsSmall) :
    ∃ w, op.onWords? a b = some w := by
  have hvalue : ∃ v, op.value? a.toInt b.toInt = some v := by
    rcases hop with rfl | rfl
    · exact ⟨_, rfl⟩
    · exact ⟨_, rfl⟩
  obtain ⟨v, hv⟩ := hvalue
  have hle : max 2 v.natAbs < 0x8000000000000000 := Nat.lt_of_le_of_lt (Op.natAbs_value?_le hv) h
  exact Op.exists_onWords? hv ⟨by omega, by omega⟩

theorem combine_const_comm (hop : op.IsRing) (h : (binary op (const c) y).IsSmall) :
    combine op (const c) y = combine op y (const c) := by
  cases hconst : y.const? with
  | none => exact combine_swapped hop hconst
  | some b =>
    obtain rfl := const?_eq_some_iff.mp hconst
    obtain ⟨w, hw⟩ := h.exists_onWords? hop
    rw [combine_constants hw, combine_constants (hop.onWords?_comm hw)]

/-- It is the same whether two constants join a sum or product one after the other or at once. -/
theorem combine_combine_const (hop : op.IsRing) (hy : y.RedexFree) (hw : op.onWords? a b = some w)
    (hsmall : (binary op (binary op y (const a)) (const b)).IsSmall) :
    combine op (combine op y (const a)) (const b) = combine op y (const w) := by
  -- The constants vary along the induction: the first may meet one inside `y` before the second comes.
  refine combine_induction (motive := fun op l r e => ∀ a b w, r = const a → op.IsRing →
      op.onWords? a b = some w → (binary op (binary op l (const a)) (const b)).IsSmall →
      combine op e (const b) = combine op l (const w))
    ?node ?constants ?neutral ?mulZero ?modOne ?swapped ?regrouped op y (const a) hy trivial
    a b w rfl hop hw hsmall
  case node =>
    rintro op l r hredex a b w rfl hop hw -
    exact combine_regrouped hop hw (combine_eq_binary hredex)
  case constants =>
    rintro op l a u hu _ b w ⟨⟩ hop hw hsmall
    have hub : (binary op (const u) (const b)).IsSmall :=
      hsmall.of_le (Nat.mul_le_mul_right _ (magnitude_onWords?_le hu))
    obtain ⟨v, hv⟩ := hub.exists_onWords? hop
    rw [combine_constants hv, combine_constants (hop.onWords?_assoc hu hw hv)]
  case neutral =>
    rintro op l a hneutral _ b w ⟨⟩ hop hw -
    have hbw : const b = const w := by
      rw [← combine_constants (hop.onWords?_comm hw), hneutral]
    rw [hbw]
  case mulZero =>
    rintro l _ b w ⟨⟩ hop hw -
    have hzero : const w = const 0 := by
      rw [← combine_constants (hop.onWords?_comm hw), combine_mul_zero]
    rw [combine_constants hw, hzero, combine_mul_zero]
  case modOne =>
    rintro l _ b w ⟨⟩ hop hw -
    rcases hop with hop | hop <;> cases hop
  case swapped =>
    rintro op c r e _ hr _ a b w rfl _ _ _
    cases hr
  case regrouped =>
    rintro op l a' a u e hop hu hredex ih _ b w ⟨⟩ - hw hsmall
    have hub : (binary op (binary op l (const u)) (const b)).IsSmall :=
      hsmall.of_le (Nat.mul_le_mul_right _ (Rewrites.regrouped hop hu).magnitude_le)
    have hconst : (binary op (const u) (const b)).IsSmall :=
      hub.of_le (Nat.mul_le_mul_right _ (magnitude_le_right op l (const u)))
    obtain ⟨v, hv⟩ := hconst.exists_onWords? hop
    have hjoined : op.onWords? a' w = some v := hop.onWords?_assoc hu hw hv
    rw [ih u b v rfl hop hv hub, combine_regrouped hop hjoined (combine_eq_binary hredex)]

section
variable {f g : Nat → Expr}

theorem magnitude_substitute_le (hf : ∀ p, (f p).magnitude ≤ 2) (hg : ∀ p, (g p).magnitude ≤ 2)
    (e : Expr) : (e.substitute f g).magnitude ≤ e.magnitude := by
  induction e with
  | dim p => exact hf p
  | symbol p => exact hg p
  | const c => exact Nat.le_refl _
  | binary op l r hl hr => exact (magnitude_combine_le op _ _).trans (Nat.mul_le_mul hl hr)

theorem redexFree_substitute_leaves (hf : ∀ p, (f p).magnitude ≤ 2) (hg : ∀ p, (g p).magnitude ≤ 2)
    (e : Expr) : (e.substitute f g).RedexFree :=
  redexFree_substitute (fun p => redexFree_of_magnitude_le_two (hf p))
    (fun p => redexFree_of_magnitude_le_two (hg p)) e

theorem substitute_combine (hf : ∀ p, (f p).magnitude ≤ 2) (hg : ∀ p, (g p).magnitude ≤ 2)
    (hl : l.RedexFree) (hr : r.RedexFree) (hsmall : (binary op l r).IsSmall) :
    (combine op l r).substitute f g = combine op (l.substitute f g) (r.substitute f g) := by
  have hfree : ∀ e : Expr, (e.substitute f g).RedexFree := redexFree_substitute_leaves hf hg
  have hle : ∀ e : Expr, (e.substitute f g).magnitude ≤ e.magnitude := magnitude_substitute_le hf hg
  refine combine_induction (motive := fun op l r e => (binary op l r).IsSmall →
      e.substitute f g = combine op (l.substitute f g) (r.substitute f g))
    ?node ?constants ?neutral ?mulZero ?modOne ?swapped ?regrouped op l r hl hr hsmall
  case node => exact fun op l r _ _ => rfl
  case constants => exact fun op a b w hw _ => (combine_constants hw).symm
  case neutral => exact fun op l c hneutral _ => (hneutral _).symm
  case mulZero => exact fun l _ => (combine_mul_zero _).symm
  case modOne => exact fun l _ => (combine_mod_one _).symm
  case swapped =>
    -- The substitution may have made a constant of `r`, and then there is nothing to swap.
    intro op c r e hop _ ih hsmall
    have hswap : (binary op r (const c)).IsSmall := hsmall.of_le (Nat.le_of_eq (Nat.mul_comm _ _))
    have hmoved : (binary op (const c) (r.substitute f g)).IsSmall :=
      hsmall.of_le (Nat.mul_le_mul_left _ (hle r))
    rw [ih hswap]
    exact (combine_const_comm hop hmoved).symm
  case regrouped =>
    intro op l a b w e hop hw _ ih hsmall
    have hjoined : (binary op l (const w)).IsSmall :=
      hsmall.of_le (Rewrites.regrouped hop hw).magnitude_le
    have hmoved : (binary op (binary op (l.substitute f g) (const a)) (const b)).IsSmall :=
      hsmall.of_le (Nat.mul_le_mul_right _ (Nat.mul_le_mul_right _ (hle l)))
    rw [ih hjoined]
    exact (combine_combine_const hop (hfree l) hw hmoved).symm

/-- Two substitutions of leaves are one. -/
theorem substitute_substitute {f' g' : Nat → Expr} (hf : ∀ p, (f p).magnitude ≤ 2)
    (hg : ∀ p, (g p).magnitude ≤ 2) (hf' : ∀ p, (f' p).magnitude ≤ 2) (hg' : ∀ p, (g' p).magnitude ≤ 2)
    (he : e.IsSmall) :
    (e.substitute f g).substitute f' g' =
      e.substitute (fun p => (f p).substitute f' g') fun p => (g p).substitute f' g' := by
  have hfree : ∀ e : Expr, (e.substitute f g).RedexFree := redexFree_substitute_leaves hf hg
  induction e with
  | dim p => rfl
  | symbol p => rfl
  | const c => rfl
  | binary op l r hl hr =>
    have hsmall : (binary op (l.substitute f g) (r.substitute f g)).IsSmall :=
      he.of_le (Nat.mul_le_mul (magnitude_substitute_le hf hg l) (magnitude_substitute_le hf hg r))
    simp only [substitute]
    rw [substitute_combine hf' hg' (hfree l) (hfree r) hsmall, hl he.left, hr he.right]

end

/-- How many variables and constants are written in the expression. -/
def numLeaves : Expr → Nat
  | binary _ l r => l.numLeaves + r.numLeaves
  | _ => 1

/-- The constants lie within a bound of at least 2, and the bound to the power of the number of leaves is
a word. -/
def HasSmallConstants (e : Expr) : Prop :=
  ∃ bound : Nat, 2 ≤ bound ∧ (∀ c, const c ∈ e.nodes → -(bound : Int) ≤ c.toInt ∧ c.toInt ≤ bound) ∧
    bound ^ e.numLeaves < 0x8000000000000000

theorem magnitude_le_pow {bound : Nat} (htwo : 2 ≤ bound)
    (h : ∀ c, const c ∈ e.nodes → -(bound : Int) ≤ c.toInt ∧ c.toInt ≤ bound) :
    e.magnitude ≤ bound ^ e.numLeaves := by
  induction e with
  | dim p => simpa [magnitude, numLeaves] using htwo
  | symbol p => simpa [magnitude, numLeaves] using htwo
  | const c =>
    have hc := h c List.mem_cons_self
    simp only [magnitude, numLeaves, pow_one]
    omega
  | binary op l r hl hr =>
    have hleft := hl fun c hc => h c (List.mem_cons_of_mem _ (List.mem_append_left _ hc))
    have hright := hr fun c hc => h c (List.mem_cons_of_mem _ (List.mem_append_right _ hc))
    rw [numLeaves, pow_add]
    exact Nat.mul_le_mul hleft hright

theorem HasSmallConstants.isSmall (h : e.HasSmallConstants) : e.IsSmall := by
  obtain ⟨bound, htwo, hconst, hpow⟩ := h
  exact Nat.lt_of_le_of_lt (magnitude_le_pow htwo hconst) hpow

end Expr
end AffineSearch
