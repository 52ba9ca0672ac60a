import AffineSearch.Pattern.Text
import AffineSearch.Proofs.Expr.Text

/-! The texts of index maps and of patterns are read from their ends too, so no two expressions, index maps
or patterns are written alike. -/
namespace AffineSearch
open Text

/-! ### Index maps -/

namespace IndexMap

theorem reads_expressions (es : List Expr) :
    Reads (fun es => commas (es.map Expr.text)) AfterBracket es :=
  reads_commas (fun e _ => e.reads.1) Expr.not_afterBracket_text

theorem reads_variablesText {name : String} (var : Nat → Expr)
    (hvar : ∀ p, (var p).text = name ++ toString p) (n : Nat) :
    Reads (variablesText name) AfterBracket n := by
  have htext (n : Nat) : variablesText name n = commas (((List.range n).map var).map Expr.text) := by
    simp only [variablesText, List.map_map, Function.comp_def, hvar]
  intro m r s hr hs h
  rw [htext, htext] at h
  obtain ⟨hvars, rfl⟩ := reads_expressions _ _ r s hr hs h
  exact ⟨by simpa using congrArg List.length hvars, rfl⟩

theorem reads_dims (n : Nat) : Reads (variablesText "d") AfterBracket n :=
  reads_variablesText Expr.dim (fun _ => rfl) n

theorem reads_symbols (n : Nat) : Reads (variablesText "s") AfterBracket n :=
  reads_variablesText Expr.symbol (fun _ => rfl) n

/-- The list of symbols, or nothing, after the closing parenthesis of the dimensions. -/
theorem symbolsText_append_inj {m n : Nat} {r s : List Char}
    (h : back (symbolsText m) ++ ')' :: r = back (symbolsText n) ++ ')' :: s) : m = n ∧ r = s := by
  rw [symbolsText, symbolsText] at h
  split at h <;> split at h
  · simp_all [back]
  · simp [back] at h
  · simp [back] at h
  · have h' : back (variablesText "s" m) ++ '[' :: ')' :: r =
        back (variablesText "s" n) ++ '[' :: ')' :: s := by simpa [back] using h
    simpa using reads_symbols m n _ _ (afterBracket_square _) (afterBracket_square _) h'

theorem back_text (m : IndexMap) (r : List Char) :
    back m.text ++ r = ')' :: (back (commas (m.results.map Expr.text)) ++
      '(' :: ' ' :: '>' :: '-' :: ' ' :: (back (symbolsText m.numSymbols) ++
        ')' :: (back (variablesText "d" m.numDims) ++ '(' :: r))) := by
  simp [text, back]

theorem reads_text (m : IndexMap) : Reads text AtItem m := by
  intro n r s hr hs h
  rw [back_text, back_text, List.cons_inj_right] at h
  obtain ⟨hresults, h⟩ := reads_expressions _ _ _ _ (afterBracket_paren _) (afterBracket_paren _) h
  simp only [List.cons_inj_right] at h
  obtain ⟨hsymbols, h⟩ := symbolsText_append_inj h
  obtain ⟨hdims, h⟩ := reads_dims _ _ _ _ (afterBracket_paren _) (afterBracket_paren _) h
  cases m
  cases n
  simp_all

theorem not_afterBracket_text (m : IndexMap) (r : List Char) : ¬ AfterBracket (back m.text ++ r) := by
  simp [back_text, AfterBracket]

end IndexMap

/-! ### Patterns -/

theorem Kind.reads_text (k : Kind) : Reads Kind.text AtItem k := by
  intro l r s _ _ h
  cases k <;> cases l <;> simp_all [Kind.text, back]

theorem Kind.not_afterBracket_text (k : Kind) (r : List Char) : ¬ AfterBracket (back k.text ++ r) := by
  cases k <;> simp [Kind.text, back, AfterBracket]

theorem Pattern.text_injective : Function.Injective text := by
  intro p q h
  have hback : back p.text = back q.text := congrArg back h
  simp only [text, back_append] at hback
  obtain ⟨hkinds, h⟩ := reads_commas (fun k _ => k.reads_text) Kind.not_afterBracket_text
    _ _ _ (.inr (by simp [back])) (.inr (by simp [back])) (List.append_cancel_left hback)
  obtain ⟨hmaps, -⟩ := reads_commas (fun m _ => m.reads_text) IndexMap.not_afterBracket_text
    _ _ _ (.inr (by simp [back])) (.inr (by simp [back])) (List.append_cancel_left h)
  cases p
  cases q
  simp_all

/-- The written form leaves nothing open: equal texts are the text of one expression, one index map or one
pattern. The expressions need not be folded, nor the maps and patterns well-formed. -/
theorem text_unambiguous :
    Function.Injective Expr.text ∧ Function.Injective IndexMap.text ∧
      Function.Injective Pattern.text := by
  have hstart : AtItem ['('] := .inl (.inl (List.prefix_refl _))
  exact ⟨injective_of_reads (fun e => e.reads.1) hstart,
    injective_of_reads IndexMap.reads_text hstart, Pattern.text_injective⟩

end AffineSearch
