import AffineSearch.Pattern.WellFormed
import AffineSearch.Proofs.Expr.Folding

/-! The variables of an expression. Folding makes none up, and what a change of the expression does to them
is known from the variables that it puts in. -/
namespace AffineSearch.Expr

/-- All dimensions of the expression are among `dims` and all its symbols among `symbols`. -/
def VarsIn (dims symbols : Nat → Prop) : Expr → Prop
  | dim p => dims p
  | symbol p => symbols p
  | const _ => True
  | binary _ l r => l.VarsIn dims symbols ∧ r.VarsIn dims symbols

variable {dims symbols dims' symbols' : Nat → Prop} {e e' l r old new : Expr} {op : Op}

theorem inScope_iff_varsIn {numDims numSymbols : Nat} :
    e.InScope numDims numSymbols ↔ e.VarsIn (· < numDims) (· < numSymbols) := by
  induction e with
  | dim p => exact Iff.rfl
  | symbol p => exact Iff.rfl
  | const c => exact Iff.rfl
  | binary op l r hl hr => exact and_congr hl hr

theorem VarsIn.mono (h : e.VarsIn dims symbols) (hd : ∀ p, dims p → dims' p)
    (hs : ∀ p, symbols p → symbols' p) : e.VarsIn dims' symbols' := by
  induction e with
  | dim p => exact hd p h
  | symbol p => exact hs p h
  | const c => trivial
  | binary op l r hl hr => exact ⟨hl h.1, hr h.2⟩

theorem varsIn_of_forall (hd : ∀ p, dims p) (hs : ∀ p, symbols p) : e.VarsIn dims symbols := by
  induction e with
  | dim p => exact hd p
  | symbol p => exact hs p
  | const c => trivial
  | binary op l r hl hr => exact ⟨hl, hr⟩

theorem mentionsDim_eq_false_iff {d : Nat} :
    e.mentionsDim d = false ↔ e.VarsIn (· ≠ d) fun _ => True := by
  induction e with
  | dim p => simp [mentionsDim, VarsIn]
  | symbol p => simp [mentionsDim, VarsIn]
  | const c => simp [mentionsDim, VarsIn]
  | binary op l r hl hr => simp [mentionsDim, VarsIn, hl, hr]

theorem mentionsSymbol_eq_false_iff {s : Nat} :
    e.mentionsSymbol s = false ↔ e.VarsIn (fun _ => True) (· ≠ s) := by
  induction e with
  | dim p => simp [mentionsSymbol, VarsIn]
  | symbol p => simp [mentionsSymbol, VarsIn]
  | const c => simp [mentionsSymbol, VarsIn]
  | binary op l r hl hr => simp [mentionsSymbol, VarsIn, hl, hr]

theorem Rewrites.varsIn (h : Rewrites e e') (he : e.VarsIn dims symbols) : e'.VarsIn dims symbols := by
  induction h with
  | refl => exact he
  | trans _ _ ih ih' => exact ih' (ih he)
  | constants _ => trivial
  | neutral _ => exact he.1
  | absorbing _ => trivial
  | swapped _ => exact ⟨he.2, he.1⟩
  | regrouped _ _ => exact ⟨he.1.1, trivial⟩

theorem varsIn_combine (hl : l.VarsIn dims symbols) (hr : r.VarsIn dims symbols) :
    (combine op l r).VarsIn dims symbols :=
  (rewrites_combine op l r).varsIn ⟨hl, hr⟩

theorem varsIn_substitute {f g : Nat → Expr}
    (h : e.VarsIn (fun p => (f p).VarsIn dims symbols) fun p => (g p).VarsIn dims symbols) :
    (e.substitute f g).VarsIn dims symbols := by
  induction e with
  | dim p => exact h
  | symbol p => exact h
  | const c => trivial
  | binary op l r hl hr => exact varsIn_combine (hl h.1) (hr h.2)

/-- Only what is put for the variables of the expression matters. -/
theorem substitute_congr {f g f' g' : Nat → Expr}
    (h : e.VarsIn (fun p => f p = f' p) fun p => g p = g' p) : e.substitute f g = e.substitute f' g' := by
  induction e with
  | dim p => exact h
  | symbol p => exact h
  | const c => rfl
  | binary op l r hl hr => rw [substitute, hl h.1, hr h.2, substitute]

/-- Each expression in turn is the one replaced, a leaf that stays, or built from its replaced operands. -/
theorem replace_induction {motive : Expr → Expr → Prop} (found : motive old new)
    (dim : ∀ p, dim p ≠ old → motive (dim p) (dim p))
    (symbol : ∀ p, symbol p ≠ old → motive (symbol p) (symbol p))
    (const : ∀ c, motive (const c) (const c))
    (binary : ∀ op l r l' r', motive l l' → motive r r' →
      motive (binary op l r) (combine op l' r')) (e : Expr) : motive e (e.replace old new) := by
  induction e with
  | dim p =>
    unfold replace
    split
    · next heq => exact heq ▸ found
    · next hne => exact dim p hne
  | symbol p =>
    unfold replace
    split
    · next heq => exact heq ▸ found
    · next hne => exact symbol p hne
  | const c =>
    unfold replace
    split
    · next heq => exact heq ▸ found
    · exact const c
  | binary op l r hl hr =>
    unfold replace
    split
    · next heq => exact heq ▸ found
    · exact binary op l r _ _ hl hr

/-- A variable that is replaced itself does not count. -/
theorem varsIn_replace (hnew : new.VarsIn dims symbols)
    (h : e.VarsIn (fun p => dim p ≠ old → dims p) fun p => symbol p ≠ old → symbols p) :
    (e.replace old new).VarsIn dims symbols := by
  refine replace_induction (motive := fun e e' =>
    e.VarsIn (fun p => dim p ≠ old → dims p) (fun p => symbol p ≠ old → symbols p) →
      e'.VarsIn dims symbols) ?found ?dim ?symbol ?const ?binary e h
  case found => exact fun _ => hnew
  case dim => exact fun p hne h => h hne
  case symbol => exact fun p hne h => h hne
  case const => exact fun c _ => trivial
  case binary => exact fun op l r l' r' hl hr h => varsIn_combine (hl h.1) (hr h.2)

/-- As long as the sums are words, a shift makes room and nothing else. -/
theorem shiftDims_eq_makeRoom {count offset : Nat} {symbols : Nat → Prop}
    (h : e.VarsIn (fun p => p + count < 0x10000000000000000) symbols) :
    e.shiftDims count offset = e.makeRoom count offset := by
  induction e with
  | dim p => rw [shiftDims, makeRoom, Word.wrappingAdd_of_lt h]
  | symbol p => rfl
  | const c => rfl
  | binary op l r hl hr => rw [shiftDims, makeRoom, hl h.1, hr h.2]

theorem varsIn_makeRoom {count offset : Nat}
    (h : e.VarsIn (fun p => dims (if offset ≤ p then p + count else p)) symbols) :
    (e.makeRoom count offset).VarsIn dims symbols := by
  induction e with
  | dim p => exact h
  | symbol p => exact h
  | const c => trivial
  | binary op l r hl hr => exact ⟨hl h.1, hr h.2⟩

/-- No dimension is moved to where a shift makes room. -/
theorem mentionsDim_makeRoom (e : Expr) {count offset d : Nat} (hge : offset ≤ d) (hlt : d < offset + count) :
    (e.makeRoom count offset).mentionsDim d = false := by
  rw [mentionsDim_eq_false_iff]
  apply varsIn_makeRoom
  apply varsIn_of_forall
  · intro p
    split <;> omega
  · exact fun p => trivial

end AffineSearch.Expr
