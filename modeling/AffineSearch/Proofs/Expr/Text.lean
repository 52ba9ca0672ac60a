import AffineSearch.Expr.Text
import AffineSearch.Proofs.Text.Reading

/-! Expressions are read from the end of their text. An expression stands there in one of three places: by
itself, as the right operand of a sum, or as an operand of another operator. The places differ in what
takes parentheses and in what can stand before the text. -/
namespace AffineSearch
open Text

theorem Op.text_append_inj {op op' : Op} {r s : List Char}
    (h : ' ' :: (back op.text ++ ' ' :: r) = ' ' :: (back op'.text ++ ' ' :: s)) : op = op' ∧ r = s := by
  cases op <;> cases op' <;> simp_all [Op.text, back]

namespace Expr

def isOperation : Expr → Bool
  | binary _ _ _ => true
  | _ => false

/-- The right operand of a sum. -/
def termText (e : Expr) : String := operandText e.isSum e.text

/-- An operand of any other operator. -/
def atomText (e : Expr) : String := operandText e.isOperation e.text

theorem needsParens_add_left (e : Expr) : needsParens .add false e = false := by
  cases e <;> rfl

theorem needsParens_add_right (e : Expr) : needsParens .add true e = e.isSum := by
  cases e with
  | binary op l r => cases op <;> rfl
  | _ => rfl

theorem needsParens_of_ne_add {op : Op} (hop : op ≠ .add) (isRight : Bool) (e : Expr) :
    needsParens op isRight e = e.isOperation := by
  cases e <;> simp [needsParens, isOperation, hop]

theorem isSum_binary {op : Op} (hop : op ≠ .add) (l r : Expr) : (binary op l r).isSum = false := by
  cases op <;> simp_all [isSum]

theorem termText_eq_text {e : Expr} (he : e.isSum = false) : e.termText = e.text := by
  rw [termText, he]
  rfl

theorem back_text_add (l r : Expr) (s : List Char) :
    back (binary .add l r).text ++ s =
      back r.termText ++ ' ' :: (back Op.add.text ++ ' ' :: (back l.text ++ s)) := by
  simp [text, needsParens_add_left, needsParens_add_right, termText, operandText, back]

theorem back_termText_binary {op : Op} (hop : op ≠ .add) (l r : Expr) (s : List Char) :
    back (binary op l r).termText ++ s =
      back r.atomText ++ ' ' :: (back op.text ++ ' ' :: (back l.atomText ++ s)) := by
  rw [termText_eq_text (isSum_binary hop l r)]
  simp [text, needsParens_of_ne_add hop, atomText, back]

/-! ### Leaves -/

/-- The letter of a variable or the sign of a constant. -/
def sigil? : Expr → Option Char
  | dim _ => some 'd'
  | symbol _ => some 's'
  | const c => if c.toInt < 0 then some '-' else none
  | binary _ _ _ => none

def numeral : Expr → Nat
  | dim p => p
  | symbol p => p
  | const c => c.toInt.natAbs
  | binary _ _ _ => 0

theorem toString_int (v : Int) :
    toString v = (if v < 0 then "-" else "") ++ toString v.natAbs := by
  rw [Int.toString_eq_repr, Int.repr_eq_if, Nat.toString_eq_repr]
  by_cases hv : v < 0
  · rw [if_neg (by omega), if_pos hv, show v.natAbs = (-v).toNat by omega]
  · rw [if_pos (by omega), if_neg hv, show v.natAbs = v.toNat by omega, String.empty_append]

theorem back_text_leaf {e : Expr} (he : e.isOperation = false) :
    back e.text = back (toString e.numeral) ++ e.sigil?.toList := by
  cases e with
  | dim p => simp [text, numeral, sigil?, back]
  | symbol p => simp [text, numeral, sigil?, back]
  | const c =>
    rw [text, toString_int, numeral, sigil?, back_append]
    split <;> rfl
  | binary op l r => simp [isOperation] at he

theorem leaf_ext {e b : Expr} (he : e.isOperation = false) (hb : b.isOperation = false)
    (hn : e.numeral = b.numeral) (h : e.sigil? = b.sigil?) : e = b := by
  cases e with
  | const c =>
    cases b with
    | const c' =>
      have hsign : c.toInt < 0 ↔ c'.toInt < 0 := by simpa [sigil?] using congrArg (· = some '-') h
      simp only [numeral] at hn
      exact congrArg const (Int64.toInt_inj.1 (by omega))
    | _ => simp_all [isOperation, sigil?]
  | _ => cases b <;> simp_all [isOperation, numeral, sigil?]

def isSigil (c : Char) : Bool := c == 'd' || c == 's' || c == '-'

theorem isSigil_of_mem_sigil? {e : Expr} {c : Char} (hc : c ∈ e.sigil?) : isSigil c := by
  cases e <;> simp only [sigil?, Option.mem_def, Option.some.injEq, Option.ite_none_right_eq_some] at hc
  · exact hc ▸ rfl
  · exact hc ▸ rfl
  · exact hc.2 ▸ rfl
  · cases hc

/-- An operand can begin, or any larger expression. -/
def AtAtom (r : List Char) : Prop := AfterBracket r ∨ [' '] <+: r

theorem AtAtom.stops {P : Char → Bool} (hP : P '(' = false ∧ P '[' = false ∧ P ' ' = false)
    {r : List Char} (hr : AtAtom r) : Stops P r := by
  obtain (⟨t, rfl⟩ | ⟨t, rfl⟩) | ⟨t, rfl⟩ := hr <;> simp [Stops, hP]

theorem stops_sigil_append {r : List Char} (hr : AtAtom r) (e : Expr) :
    Stops Char.isDigit (e.sigil?.toList ++ r) := by
  cases h : e.sigil? with
  | none => exact hr.stops (by decide)
  | some c =>
    have hc : isSigil c := isSigil_of_mem_sigil? h
    have hdigit : c.isDigit = false := by
      simp only [isSigil, Bool.or_eq_true, beq_iff_eq] at hc
      obtain (rfl | rfl) | rfl := hc <;> rfl
    simp [Stops, hdigit]

theorem leaf_append_inj {e b : Expr} (he : e.isOperation = false) (hb : b.isOperation = false)
    {r s : List Char} (hr : AtAtom r) (hs : AtAtom s) (h : back e.text ++ r = back b.text ++ s) :
    e = b ∧ r = s := by
  rw [back_text_leaf he, back_text_leaf hb, List.append_assoc, List.append_assoc] at h
  obtain ⟨hnum, hrest⟩ := toString_append_inj (stops_sigil_append hr e) (stops_sigil_append hs b) h
  obtain ⟨hsigil, rfl⟩ := run_append_inj (fun c hc => isSigil_of_mem_sigil? (by simpa using hc))
    (fun c hc => isSigil_of_mem_sigil? (by simpa using hc)) (hr.stops (by decide))
    (hs.stops (by decide)) hrest
  exact ⟨leaf_ext he hb hnum (by simpa using congrArg List.head? hsigil), rfl⟩

theorem exists_back_text_leaf_eq_cons {e : Expr} (he : e.isOperation = false) :
    ∃ c t, back e.text = c :: t ∧ c.isDigit := by
  obtain ⟨c, t, hct, hc⟩ := exists_back_toString_eq_cons e.numeral
  exact ⟨c, t ++ e.sigil?.toList, by rw [back_text_leaf he, hct, List.cons_append], hc⟩

theorem leaf_append_ne {e : Expr} (he : e.isOperation = false) (r s : List Char) :
    back e.text ++ r ≠ ')' :: s := by
  obtain ⟨c, t, hct, hc⟩ := exists_back_text_leaf_eq_cons he
  rw [hct]
  rintro ⟨⟩
  exact absurd hc (by decide)

/-! ### Operands -/

theorem atAtom_blank (r : List Char) : AtAtom (' ' :: r) := .inr (List.prefix_append _ r)

/-- The right operand of a sum can begin, or a whole expression. -/
def AtTerm (r : List Char) : Prop := AtItem r ∨ [' ', '+'] <+: r

theorem AtTerm.atAtom {r : List Char} (hr : AtTerm r) : AtAtom r := by
  obtain (h | ⟨t, rfl⟩) | ⟨t, rfl⟩ := hr
  · exact .inl h
  · exact atAtom_blank _
  · exact atAtom_blank _

theorem atTerm_plus (r : List Char) : AtTerm (' ' :: (back Op.add.text ++ r)) :=
  .inr (by simp [Op.text, back])

theorem not_atTerm_operator {op : Op} (hop : op ≠ .add) (r : List Char) :
    ¬ AtTerm (' ' :: (back op.text ++ r)) := by
  cases op <;> simp_all [AtTerm, AtItem, AfterBracket, Op.text, back]

theorem not_atItem_plus (r : List Char) : ¬ AtItem (' ' :: (back Op.add.text ++ r)) := by
  simp [AtItem, AfterBracket, Op.text, back]

/-- Only operations that are no sums take parentheses in one of the two places and not in the other. -/
theorem termText_eq_atomText_or (e : Expr) :
    e.termText = e.atomText ∨ ∃ op l r, op ≠ .add ∧ e = binary op l r := by
  cases e with
  | binary op l r =>
    by_cases hop : op = .add
    · exact .inl (by rw [hop]; rfl)
    · exact .inr ⟨op, l, r, hop, rfl⟩
  | _ => exact .inl rfl

theorem text_eq_termText_or (e : Expr) : e.text = e.termText ∨ ∃ l r, e = binary .add l r := by
  cases e with
  | binary op l r =>
    by_cases hop : op = .add
    · exact .inr ⟨l, r, by rw [hop]⟩
    · exact .inl (termText_eq_text (isSum_binary hop l r)).symm
  | _ => exact .inl rfl

theorem reads_atomText {e : Expr} (h : e.isOperation → Reads text AtItem e) :
    Reads atomText AtAtom e := by
  intro b r s hr hs heq
  cases he : e.isOperation <;> cases hb : b.isOperation <;>
    simp only [atomText, operandText, he, hb, if_true, Bool.false_eq_true, if_false, back_append,
      List.append_assoc] at heq
  · exact leaf_append_inj he hb hr hs heq
  · exact absurd heq (leaf_append_ne he _ _)
  · exact absurd heq.symm (leaf_append_ne hb _ _)
  · -- Inside the parentheses the operand is read as a whole expression.
    have heq' : back e.text ++ '(' :: r = back b.text ++ '(' :: s := by simpa [back] using heq
    simpa using h he b _ _ (.inl (afterBracket_paren r)) (.inl (afterBracket_paren s)) heq'

theorem reads_termText_of_eq {e : Expr} (he : e.termText = e.atomText) (h : Reads atomText AtAtom e) :
    Reads termText AtTerm e := by
  intro b r s hr hs heq
  rw [he] at heq
  obtain hb | ⟨op, l', r', hop, rfl⟩ := termText_eq_atomText_or b
  · exact h b r s hr.atAtom hs.atAtom (hb ▸ heq)
  · -- Both texts end in the right operand of `b`, and its operator cannot stand before a term.
    rw [back_termText_binary hop] at heq
    obtain ⟨-, rfl⟩ := h r' _ _ hr.atAtom (atAtom_blank _) heq
    exact absurd hr (not_atTerm_operator hop _)

theorem reads_termText_binary {op : Op} (hop : op ≠ .add) {l r : Expr}
    (hl : Reads atomText AtAtom l) (hr : Reads atomText AtAtom r) :
    Reads termText AtTerm (binary op l r) := by
  intro b u v hu hv heq
  rw [back_termText_binary hop] at heq
  obtain hb | ⟨op', l', r', hop', rfl⟩ := termText_eq_atomText_or b
  · rw [hb] at heq
    obtain ⟨-, rfl⟩ := hr b _ _ (atAtom_blank _) hv.atAtom heq
    exact absurd hv (not_atTerm_operator hop _)
  · rw [back_termText_binary hop'] at heq
    obtain ⟨rfl, hrest⟩ := hr r' _ _ (atAtom_blank _) (atAtom_blank _) heq
    obtain ⟨rfl, hleft⟩ := Op.text_append_inj hrest
    obtain ⟨rfl, rfl⟩ := hl l' u v hu.atAtom hv.atAtom hleft
    exact ⟨rfl, rfl⟩

theorem reads_text_of_eq {e : Expr} (he : e.text = e.termText) (h : Reads termText AtTerm e) :
    Reads text AtItem e := by
  intro b r s hr hs heq
  rw [he] at heq
  obtain hb | ⟨l', r', rfl⟩ := text_eq_termText_or b
  · exact h b r s (.inl hr) (.inl hs) (hb ▸ heq)
  · -- Both texts end in the right operand of the sum, and its plus cannot stand before a whole.
    rw [back_text_add] at heq
    obtain ⟨-, rfl⟩ := h r' _ _ (.inl hr) (atTerm_plus _) heq
    exact absurd hr (not_atItem_plus _)

theorem reads_text_add {l r : Expr} (hl : Reads text AtItem l) (hr : Reads termText AtTerm r) :
    Reads text AtItem (binary .add l r) := by
  intro b u v hu hv heq
  rw [back_text_add] at heq
  obtain hb | ⟨l', r', rfl⟩ := text_eq_termText_or b
  · rw [hb] at heq
    obtain ⟨-, rfl⟩ := hr b _ _ (atTerm_plus _) (.inl hv) heq
    exact absurd hv (not_atItem_plus _)
  · rw [back_text_add] at heq
    obtain ⟨rfl, hrest⟩ := hr r' _ _ (atTerm_plus _) (atTerm_plus _) heq
    obtain ⟨-, hleft⟩ := Op.text_append_inj hrest
    obtain ⟨rfl, rfl⟩ := hl l' u v hu hv hleft
    exact ⟨rfl, rfl⟩

theorem reads_of_leaf {e : Expr} (he : e.isOperation = false) (hsum : e.isSum = false) :
    Reads text AtItem e ∧ Reads termText AtTerm e ∧ Reads atomText AtAtom e := by
  have hatom : Reads atomText AtAtom e := reads_atomText fun h => by rw [he] at h; cases h
  have hterm := reads_termText_of_eq (by rw [termText, atomText, he, hsum]) hatom
  exact ⟨reads_text_of_eq (termText_eq_text hsum).symm hterm, hterm, hatom⟩

/-- In each of its three places an expression is read back from its text. A sum needs its left operand by
itself and its right one as a term, any other operation needs both as operands, so all three go together. -/
theorem reads (e : Expr) :
    Reads text AtItem e ∧ Reads termText AtTerm e ∧ Reads atomText AtAtom e := by
  induction e with
  | dim p => exact reads_of_leaf rfl rfl
  | symbol p => exact reads_of_leaf rfl rfl
  | const c => exact reads_of_leaf rfl rfl
  | binary op l r ihl ihr =>
    by_cases hop : op = .add
    · subst hop
      have hwhole := reads_text_add ihl.1 ihr.2.1
      have hatom : Reads atomText AtAtom (binary .add l r) := reads_atomText fun _ => hwhole
      exact ⟨hwhole, reads_termText_of_eq rfl hatom, hatom⟩
    · have hterm := reads_termText_binary hop ihl.2.2 ihr.2.2
      have hwhole := reads_text_of_eq (termText_eq_text (isSum_binary hop l r)).symm hterm
      exact ⟨hwhole, hterm, reads_atomText fun _ => hwhole⟩

theorem not_afterBracket_leaf {e : Expr} (he : e.isOperation = false) (s : List Char) :
    ¬ AfterBracket (back e.text ++ s) := by
  obtain ⟨c, t, hct, hc⟩ := exists_back_text_leaf_eq_cons he
  rw [hct]
  rintro (⟨_, ⟨⟩⟩ | ⟨_, ⟨⟩⟩) <;> exact absurd hc (by decide)

/-- An expression ends in a digit or in a closing parenthesis. -/
theorem not_afterBracket_text (e : Expr) (s : List Char) : ¬ AfterBracket (back e.text ++ s) := by
  induction e generalizing s with
  | dim p => exact not_afterBracket_leaf rfl s
  | symbol p => exact not_afterBracket_leaf rfl s
  | const c => exact not_afterBracket_leaf rfl s
  | binary op l r _ ih =>
    rw [text, back_append, List.append_assoc]
    cases needsParens op true r with
    | false => exact ih _
    | true => simp [operandText, AfterBracket, back]

end Expr
end AffineSearch
