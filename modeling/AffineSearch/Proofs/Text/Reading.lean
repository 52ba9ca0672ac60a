import AffineSearch.Text
import Mathlib.Data.List.Basic

/-! Reading written items from the end of a text. That is where the operator of a sum stands, since a sum
takes no parentheses on its left, and lists and numerals can be read in the same order. -/
namespace AffineSearch.Text

variable {α : Type}

/-- The characters of a text from its last to its first. -/
def back (t : String) : List Char := t.toList.reverse

@[simp] theorem back_append (t u : String) : back (t ++ u) = back u ++ back t := by
  simp [back]

theorem back_injective : Function.Injective back := fun t u h => by
  simpa [back, String.toList_inj] using h

/-- Read from its end, the text of `a` is the text of no other item, and where it begins is determined, if
what stands before it satisfies `start`. -/
def Reads (write : α → String) (start : List Char → Prop) (a : α) : Prop :=
  ∀ b r s, start r → start s → back (write a) ++ r = back (write b) ++ s → a = b ∧ r = s

theorem injective_of_reads {write : α → String} {start : List Char → Prop} {r : List Char}
    (h : ∀ a, Reads write start a) (hr : start r) : Function.Injective write := fun a b hab =>
  (h a b r r hr hr (by rw [hab])).1

/-! ### Numerals -/

/-- What comes next, if anything, does not satisfy `P`. -/
def Stops (P : α → Bool) (r : List α) : Prop := ∀ c ∈ r.head?, ¬ P c

theorem takeWhile_append_of_stops {P : α → Bool} {x r : List α} (hx : ∀ c ∈ x, P c)
    (hr : Stops P r) : (x ++ r).takeWhile P = x := by
  rw [List.takeWhile_append_of_pos hx]
  cases r with
  | nil => simp
  | cons c t => simp [hr c rfl]

/-- A run is read up to the first that does not belong to it. -/
theorem run_append_inj {P : α → Bool} {x y r s : List α} (hx : ∀ c ∈ x, P c)
    (hy : ∀ c ∈ y, P c) (hr : Stops P r) (hs : Stops P s) (h : x ++ r = y ++ s) : x = y ∧ r = s := by
  have hxy : x = y := by
    rw [← takeWhile_append_of_stops hx hr, h, takeWhile_append_of_stops hy hs]
  exact ⟨hxy, List.append_cancel_left (hxy ▸ h)⟩

theorem isDigit_of_mem_back_toString {n : Nat} {c : Char} (hc : c ∈ back (toString n)) : c.isDigit := by
  rw [back, Nat.toString_eq_repr, Nat.toList_repr, List.mem_reverse] at hc
  exact Nat.isDigit_of_mem_toDigits (by decide) (by decide) hc

theorem exists_back_toString_eq_cons (n : Nat) :
    ∃ c t, back (toString n) = c :: t ∧ c.isDigit := by
  have hne : back (toString n) ≠ [] := by simp [back, Nat.toString_eq_repr]
  obtain ⟨c, t, h⟩ := List.exists_cons_of_ne_nil hne
  exact ⟨c, t, h, isDigit_of_mem_back_toString (h ▸ List.mem_cons_self)⟩

theorem toString_nat_injective : Function.Injective (toString : Nat → String) := fun m n h => by
  have := congrArg (fun t : String => Nat.ofDigitChars 10 t.toList 0) h
  simpa [Nat.toString_eq_repr, Nat.toList_repr, Nat.ofDigitChars_ten_toDigits] using this

theorem toString_append_inj {m n : Nat} {r s : List Char} (hr : Stops Char.isDigit r)
    (hs : Stops Char.isDigit s) (h : back (toString m) ++ r = back (toString n) ++ s) :
    m = n ∧ r = s := by
  obtain ⟨hmn, rfl⟩ := run_append_inj (fun _ => isDigit_of_mem_back_toString)
    (fun _ => isDigit_of_mem_back_toString) hr hs h
  exact ⟨toString_nat_injective (back_injective hmn), rfl⟩

/-! ### Lists -/

/-- The bracket that opens a list stands before. -/
def AfterBracket (r : List Char) : Prop := ['('] <+: r ∨ ['['] <+: r

theorem afterBracket_paren (r : List Char) : AfterBracket ('(' :: r) := .inl (List.prefix_append _ r)

theorem afterBracket_square (r : List Char) : AfterBracket ('[' :: r) := .inr (List.prefix_append _ r)

/-- Such a bracket or the comma behind another item stands before. -/
def AtItem (r : List Char) : Prop := AfterBracket r ∨ [' ', ','] <+: r

/-- Items in the order in which they are read, each with the comma behind it. -/
def preceding (write : α → String) (as : List α) : List Char :=
  as.flatMap fun a => ' ' :: ',' :: back (write a)

theorem back_commas_concat (write : α → String) (as : List α) (a : α) :
    back (commas ((as ++ [a]).map write)) = back (write a) ++ preceding write as.reverse := by
  induction as with
  | nil => simp [commas, preceding]
  | cons b as ih =>
    have hne : (as ++ [a]).map write ≠ [] := by simp
    obtain ⟨t, ts, hts⟩ := List.exists_cons_of_ne_nil hne
    rw [List.cons_append, List.map_cons, hts, commas, ← hts, back_append, ih]
    · simp [preceding, back]
    · simp

theorem AtItem.preceding_append {write : α → String} {r : List Char} (hr : AfterBracket r)
    (as : List α) : AtItem (preceding write as ++ r) := by
  cases as with
  | nil => exact .inl hr
  | cons a as => exact .inr (by simp [preceding])

theorem preceding_append_inj {write : α → String} {as bs : List α} {r s : List Char}
    (has : ∀ a ∈ as, Reads write AtItem a) (hr : AfterBracket r) (hs : AfterBracket s)
    (h : preceding write as ++ r = preceding write bs ++ s) : as = bs ∧ r = s := by
  induction as generalizing bs with
  | nil =>
    cases bs with
    | nil => exact ⟨rfl, h⟩
    | cons b bs => obtain ⟨t, rfl⟩ | ⟨t, rfl⟩ := hr <;> simp [preceding] at h
  | cons a as ih =>
    cases bs with
    | nil => obtain ⟨t, rfl⟩ | ⟨t, rfl⟩ := hs <;> simp [preceding] at h
    | cons b bs =>
      have h' : back (write a) ++ (preceding write as ++ r) =
          back (write b) ++ (preceding write bs ++ s) := by simpa [preceding] using h
      obtain ⟨rfl, hrest⟩ := has a List.mem_cons_self b _ _ (.preceding_append hr as)
        (.preceding_append hs bs) h'
      obtain ⟨rfl, rfl⟩ := ih (fun a ha => has a (List.mem_cons_of_mem _ ha)) hrest
      exact ⟨rfl, rfl⟩

/-- A list is read item by item until a bracket comes where an item would end. -/
theorem reads_commas {write : α → String} {as : List α} (has : ∀ a ∈ as, Reads write AtItem a)
    (hw : ∀ a r, ¬ AfterBracket (back (write a) ++ r)) :
    Reads (fun as => commas (as.map write)) AfterBracket as := by
  have hitems (bs : List α) (b : α) (s : List Char) :
      ¬ AfterBracket (back (commas ((bs ++ [b]).map write)) ++ s) := by
    rw [back_commas_concat, List.append_assoc]
    exact hw b _
  intro bs r s hr hs h
  rcases as.eq_nil_or_concat' with rfl | ⟨as, a, rfl⟩ <;>
    rcases bs.eq_nil_or_concat' with rfl | ⟨bs, b, rfl⟩
  · exact ⟨rfl, h⟩
  · exact absurd (show AfterBracket ([] ++ r) from hr) (h ▸ hitems bs b s)
  · exact absurd (show AfterBracket ([] ++ s) from hs) (h ▸ hitems as a r)
  · simp only [back_commas_concat, List.append_assoc] at h
    obtain ⟨rfl, hrest⟩ := has a (by simp) b _ _ (.preceding_append hr _) (.preceding_append hs _) h
    obtain ⟨hab, rfl⟩ :=
      preceding_append_inj (fun a ha => has a (List.mem_append_left _ (List.mem_reverse.1 ha))) hr hs hrest
    exact ⟨by rw [List.reverse_inj.1 hab], rfl⟩

end AffineSearch.Text
