import AffineSearch.Proofs.Expr.Combine
import AffineSearch.Proofs.Expr.Variables

/-! Other numbers for the variables of an expression. Folding looks at constants only, so it goes the same way
before and after, and putting variables for variables folds nothing. -/
namespace AffineSearch.Expr

/-- The same tree over other variables. -/
def rename (dims symbols : Nat → Nat) : Expr → Expr
  | dim p => dim (dims p)
  | symbol p => symbol (symbols p)
  | const c => const c
  | binary op l r => binary op (l.rename dims symbols) (r.rename dims symbols)

/-- Where position `p` comes to stand once position `d` is gone. -/
def closeUp (d p : Nat) : Nat := if p < d then p else p - 1

/-- The dimensions above `d` move down by one. -/
def lowerDims (d : Nat) : Expr → Expr := rename (closeUp d) id

/-- The symbols above `s` move down by one. -/
def lowerSymbols (s : Nat) : Expr → Expr := rename id (closeUp s)

variable {f g : Nat → Nat} {F G F' G' : Nat → Expr} {op : Op} {e l r old new : Expr} {c : Int64}

theorem rename_eq_const_iff : e.rename f g = const c ↔ e = const c := by
  cases e <;> simp [rename]

theorem const?_rename (e : Expr) (f g : Nat → Nat) : (e.rename f g).const? = e.const? := by
  cases e <;> rfl

theorem rename_eq_binary_const (h : e.rename f g = binary op l (const c)) :
    ∃ l', e = binary op l' (const c) := by
  cases e with
  | dim p => cases h
  | symbol p => cases h
  | const c => cases h
  | binary op' l' r' =>
    obtain ⟨rfl, -, hr⟩ := binary.inj h
    exact ⟨l', congrArg _ (rename_eq_const_iff.mp hr)⟩

theorem IsRedex.of_rename (h : IsRedex op (l.rename f g) (r.rename f g)) : IsRedex op l r := by
  generalize hl : l.rename f g = l', hr : r.rename f g = r' at h
  cases h with
  | swappedSum hnone =>
    rw [← hr, const?_rename] at hnone
    rw [rename_eq_const_iff.mp hl]
    exact .swappedSum hnone
  | swappedProduct hnone =>
    rw [← hr, const?_rename] at hnone
    rw [rename_eq_const_iff.mp hl]
    exact .swappedProduct hnone
  | nestedSum hfits =>
    obtain ⟨l'', rfl⟩ := rename_eq_binary_const hl
    rw [rename_eq_const_iff.mp hr]
    exact .nestedSum hfits
  | nestedProduct hfits =>
    obtain ⟨l'', rfl⟩ := rename_eq_binary_const hl
    rw [rename_eq_const_iff.mp hr]
    exact .nestedProduct hfits
  | constants hv hfits =>
    rw [rename_eq_const_iff.mp hl, rename_eq_const_iff.mp hr]
    exact .constants hv hfits
  | addZero | mulZero | mulOne | floorDivOne | ceilDivOne | modOne =>
    rw [rename_eq_const_iff.mp hr]
    constructor

theorem combine_rename_of_not_isRedex (h : ¬IsRedex op l r) :
    combine op (l.rename f g) (r.rename f g) = (binary op l r).rename f g :=
  combine_eq_binary fun hredex => h hredex.of_rename

theorem RedexFree.rename (h : e.RedexFree) (f g : Nat → Nat) : (e.rename f g).RedexFree := by
  induction e with
  | dim p => trivial
  | symbol p => trivial
  | const c => trivial
  | binary op l r hl hr => exact ⟨fun hredex => h.1 hredex.of_rename, hl h.2.1, hr h.2.2⟩

theorem combine_rename (hl : l.RedexFree) (hr : r.RedexFree) :
    combine op (l.rename f g) (r.rename f g) = (combine op l r).rename f g := by
  refine combine_induction (motive := fun op l r e =>
      combine op (l.rename f g) (r.rename f g) = e.rename f g)
    ?node ?constants ?neutral ?mulZero ?modOne ?swapped ?regrouped op l r hl hr
  case node => exact fun op l r hredex => combine_rename_of_not_isRedex hredex
  case constants => exact fun op a b w hw => combine_constants hw
  case neutral => exact fun op l c hneutral => hneutral _
  case mulZero => exact fun l => combine_mul_zero _
  case modOne => exact fun l => combine_mod_one _
  case swapped =>
    intro op c r e hop hr ih
    exact (combine_swapped hop ((const?_rename r f g).trans hr)).trans ih
  case regrouped =>
    intro op l a b w e hop hw hredex ih
    exact (combine_regrouped hop hw (combine_rename_of_not_isRedex hredex)).trans ih

/-- What puts variables for the variables of a redex-free expression leaves no redex either. -/
theorem RedexFree.substitute_eq_rename (h : e.RedexFree)
    (hvars : e.VarsIn (fun p => F p = dim (f p)) fun p => G p = symbol (g p)) :
    e.substitute F G = e.rename f g := by
  induction e with
  | dim p => exact hvars
  | symbol p => exact hvars
  | const c => rfl
  | binary op l r hl hr =>
    rw [substitute, hl h.2.1 hvars.1, hr h.2.2 hvars.2]
    exact combine_rename_of_not_isRedex h.1

theorem redexFree_replace (hnew : new.RedexFree) (e : Expr) : (e.replace old new).RedexFree := by
  refine replace_induction (motive := fun _ e' => e'.RedexFree) ?found ?dim ?symbol ?const ?binary e
  case found => exact hnew
  case dim => exact fun p _ => trivial
  case symbol => exact fun p _ => trivial
  case const => exact fun c => trivial
  case binary => exact fun op l r l' r' hl hr => redexFree_combine hl hr

/-- A variable becomes a constant and the others get new numbers. That is one substitution for all of them. -/
theorem rename_replace (hold : old.substitute F G = const c) (hF : ∀ p, dim p ≠ old → F p = dim (f p))
    (hG : ∀ p, symbol p ≠ old → G p = symbol (g p)) (e : Expr) :
    (e.replace old (const c)).rename f g = e.substitute F G := by
  refine (replace_induction (motive := fun e e' => e'.RedexFree ∧ e'.rename f g = e.substitute F G)
    ?found ?dim ?symbol ?const ?binary e).2
  case found => exact ⟨trivial, hold.symm⟩
  case dim => exact fun p hne => ⟨trivial, (hF p hne).symm⟩
  case symbol => exact fun p hne => ⟨trivial, (hG p hne).symm⟩
  case const => exact fun c => ⟨trivial, rfl⟩
  case binary =>
    intro op l r l' r' hl hr
    refine ⟨redexFree_combine hl.1 hr.1, ?_⟩
    rw [← combine_rename hl.1 hr.1, hl.2, hr.2, substitute]

/-- A replaced variable is gone before a substitution could put anything for it. For the others it puts
variables. -/
theorem substitute_replace (hold : old.substitute F' G' = const c)
    (hF' : ∀ p, dim p ≠ old → F' p = dim (f p)) (hG' : ∀ p, symbol p ≠ old → G' p = symbol (g p))
    (hvars : e.VarsIn (fun p => dim p ≠ old → F p = dim (f p)) fun p => symbol p ≠ old → G p = symbol (g p)) :
    (e.replace old (const c)).substitute F G = e.substitute F' G' := by
  have hnew : (const c).RedexFree := trivial
  have hfree : (e.replace old (const c)).RedexFree := redexFree_replace hnew e
  rw [hfree.substitute_eq_rename (varsIn_replace trivial hvars), rename_replace hold hF' hG']

end AffineSearch.Expr
