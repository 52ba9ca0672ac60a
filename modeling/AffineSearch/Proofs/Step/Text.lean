import AffineSearch.Proofs.Text.Reading
import AffineSearch.Step.Basic

/-! No two steps are written alike. The name stands in front of the parenthesis, and the parameters are
read from the end. -/
namespace AffineSearch
open Text

/-! ### Masks -/

def isFlag (c : Char) : Bool := c = '0' || c = '1'

theorem isFlag_of_mem_back_text {m : Mask} {c : Char} (hc : c ∈ back m.text) : isFlag c = true := by
  have hflag : c ∈ m.bits.map fun b => if b then '1' else '0' := by simpa [back, Mask.text] using hc
  obtain ⟨b, -, rfl⟩ := List.mem_map.mp hflag
  cases b <;> rfl

theorem Mask.text_injective : Function.Injective Mask.text := by
  intro m n h
  have hbits : m.bits = n.bits := by
    have hinj : Function.Injective fun b : Bool => if b then '1' else '0' := by
      intro a b hab
      cases a <;> cases b <;> simp_all
    apply List.map_injective_iff.mpr hinj
    simpa [Mask.text] using congrArg String.toList h
  cases m
  cases n
  simpa using hbits

theorem Mask.text_append_inj {m n : Mask} {r s : List Char} (hr : Stops isFlag r) (hs : Stops isFlag s)
    (h : back m.text ++ r = back n.text ++ s) : m = n ∧ r = s := by
  obtain ⟨hmn, rfl⟩ := run_append_inj (fun _ => isFlag_of_mem_back_text)
    (fun _ => isFlag_of_mem_back_text) hr hs h
  exact ⟨Mask.text_injective (back_injective hmn), rfl⟩

/-! ### Steps -/

namespace Step

theorem name_ne_paren {s : Step} : ∀ c ∈ s.name.toList, (c != '(') = true := by
  cases s <;> simp [name]

theorem name_and_parameters_of_text {s t : Step} (h : s.text = t.text) :
    s.name = t.name ∧ s.parametersText = t.parametersText := by
  have hstop (r : List Char) : Stops (· != '(') ('(' :: r) := by simp [Stops]
  have hlist : s.name.toList ++ '(' :: (s.parametersText.toList ++ [')']) =
      t.name.toList ++ '(' :: (t.parametersText.toList ++ [')']) := by
    simpa [text] using congrArg String.toList h
  obtain ⟨hname, hrest⟩ := run_append_inj name_ne_paren name_ne_paren (hstop _) (hstop _) hlist
  have hparameters := List.append_cancel_right (List.cons.inj hrest).2
  exact ⟨String.toList_inj.mp hname, String.toList_inj.mp hparameters⟩

theorem mergeDims_of_parametersText {d1 d2 e1 e2 : Nat}
    (h : (mergeDims d1 d2).parametersText = (mergeDims e1 e2).parametersText) : d1 = e1 ∧ d2 = e2 := by
  have hback := congrArg back h
  simp only [parametersText, back_append] at hback
  have hstop (r : List Char) : Stops Char.isDigit (back ", d" ++ r) := by simp [back, Stops]
  obtain ⟨h2, hrest⟩ := toString_append_inj (hstop _) (hstop _) hback
  have h1 := List.append_cancel_right (List.append_cancel_left hrest)
  exact ⟨toString_nat_injective (back_injective h1), h2⟩

/-- The flags of a mask are read up to the sign of equality in front of them. -/
theorem mask_of_parametersText {m n : Mask} {r s : List Char}
    (h : back m.text ++ (back "; mask=" ++ r) = back n.text ++ (back "; mask=" ++ s)) : m = n ∧ r = s := by
  have hstop (r : List Char) : Stops isFlag (back "; mask=" ++ r) := by simp [back, Stops, isFlag]
  obtain ⟨hmask, hrest⟩ := Mask.text_append_inj (hstop _) (hstop _) h
  exact ⟨hmask, List.append_cancel_left hrest⟩

theorem permute_of_parametersText {i j k l : Nat} {m n : Mask}
    (h : (permute i j m).parametersText = (permute k l n).parametersText) : i = k ∧ j = l ∧ m = n := by
  have hback := congrArg back h
  simp only [parametersText, back_append] at hback
  have hstop (r : List Char) : Stops Char.isDigit (back ", " ++ r) := by simp [back, Stops]
  obtain ⟨hmask, hrest⟩ := mask_of_parametersText hback
  obtain ⟨hj, hrest⟩ := toString_append_inj (hstop _) (hstop _) hrest
  have hi := List.append_cancel_left hrest
  exact ⟨toString_nat_injective (back_injective hi), hj, hmask⟩

theorem expand_of_parametersText {k l : Kind} {m n : Mask}
    (h : (expand k m).parametersText = (expand l n).parametersText) : k = l ∧ m = n := by
  have hback := congrArg back h
  simp only [parametersText, back_append] at hback
  obtain ⟨hmask, hkind⟩ := mask_of_parametersText hback
  have hkind := back_injective hkind
  refine ⟨?_, hmask⟩
  cases k <;> cases l <;> simp_all [Kind.text]

theorem text_injective : Function.Injective text := by
  intro s t h
  obtain ⟨hname, hparameters⟩ := name_and_parameters_of_text h
  cases s with
  | unroll d =>
    cases t with
    | unroll e =>
      have hdim : toString d = toString e := by simpa [parametersText] using hparameters
      rw [toString_nat_injective hdim]
    | _ => simp [name] at hname
  | dropSymbol d =>
    cases t with
    | dropSymbol e =>
      have hsymbol : toString d = toString e := by simpa [parametersText] using hparameters
      rw [toString_nat_injective hsymbol]
    | _ => simp [name] at hname
  | mergeDims d1 d2 =>
    cases t with
    | mergeDims e1 e2 =>
      obtain ⟨rfl, rfl⟩ := mergeDims_of_parametersText hparameters
      rfl
    | _ => simp [name] at hname
  | permute i j m =>
    cases t with
    | permute k l n =>
      obtain ⟨rfl, rfl, rfl⟩ := permute_of_parametersText hparameters
      rfl
    | _ => simp [name] at hname
  | expand k m =>
    cases t with
    | expand l n =>
      obtain ⟨rfl, rfl⟩ := expand_of_parametersText hparameters
      rfl
    | _ => simp [name] at hname
  | decompose p =>
    cases t with
    | decompose q =>
      have hposition : toString p = toString q := by simpa [parametersText] using hparameters
      rw [toString_nat_injective hposition]
    | _ => simp [name] at hname

theorem newline_notMem_toDigits (n : Nat) : '\n' ∉ Nat.toDigits 10 n := by
  intro h
  have hdigit : '\n'.isDigit = true := Nat.isDigit_of_mem_toDigits (by decide) (by decide) h
  cases hdigit

theorem newline_notMem_maskText (m : Mask) : '\n' ∉ m.text.toList := by
  intro h
  have hflag : isFlag '\n' = true := isFlag_of_mem_back_text (by simpa [back] using h)
  cases hflag

theorem newline_notMem_text (s : Step) : '\n' ∉ s.text.toList := by
  cases s with
  | expand k m =>
    cases k <;> simp [text, name, parametersText, Kind.text, newline_notMem_maskText]
  | _ => simp [text, name, parametersText, newline_notMem_toDigits, newline_notMem_maskText]

end Step
end AffineSearch
