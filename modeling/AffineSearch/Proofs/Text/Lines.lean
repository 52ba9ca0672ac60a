import AffineSearch.Proofs.Text.Reading

/-! Texts of lines, each of which is closed by a line feed. -/
namespace AffineSearch.Text

/-- The lines, one below the other. -/
def closed (ls : List String) : String := String.join (ls.map (· ++ "\n"))

theorem toList_closed_cons (l : String) (ls : List String) :
    (closed (l :: ls)).toList = l.toList ++ '\n' :: (closed ls).toList := by
  simp [closed]

theorem closed_ne_closed_nil (l : String) (ls : List String) : closed (l :: ls) ≠ closed [] := by
  intro h
  have hlist := congrArg String.toList h
  rw [toList_closed_cons] at hlist
  simp [closed] at hlist

theorem line_append_inj {l m : String} {r s : List Char} (hl : '\n' ∉ l.toList) (hm : '\n' ∉ m.toList)
    (h : l.toList ++ '\n' :: r = m.toList ++ '\n' :: s) : l = m ∧ r = s := by
  have hinner (k : String) (hk : '\n' ∉ k.toList) : ∀ c ∈ k.toList, (c != '\n') = true := by
    intro c hc
    have hne : c ≠ '\n' := ne_of_mem_of_not_mem hc hk
    simpa using hne
  have hstop (t : List Char) : Stops (· != '\n') ('\n' :: t) := by simp [Stops]
  obtain ⟨hlm, hrs⟩ := run_append_inj (hinner l hl) (hinner m hm) (hstop r) (hstop s) h
  exact ⟨String.toList_inj.mp hlm, (List.cons.inj hrs).2⟩

theorem closed_inj {ls ms : List String} (hl : ∀ l ∈ ls, '\n' ∉ l.toList)
    (hm : ∀ m ∈ ms, '\n' ∉ m.toList) (h : closed ls = closed ms) : ls = ms := by
  induction ls generalizing ms with
  | nil =>
    cases ms with
    | nil => rfl
    | cons m ms => exact absurd h.symm (closed_ne_closed_nil m ms)
  | cons l ls ih =>
    cases ms with
    | nil => exact absurd h (closed_ne_closed_nil l ls)
    | cons m ms =>
      have hlist := congrArg String.toList h
      rw [toList_closed_cons, toList_closed_cons] at hlist
      obtain ⟨rfl, hrest⟩ := line_append_inj (hl l List.mem_cons_self) (hm m List.mem_cons_self) hlist
      rw [ih (fun k hk => hl k (List.mem_cons_of_mem l hk))
        (fun k hk => hm k (List.mem_cons_of_mem l hk)) (String.toList_inj.mp hrest)]

theorem count_closed {ls : List String} (hl : ∀ l ∈ ls, '\n' ∉ l.toList) :
    (closed ls).toList.count '\n' = ls.length := by
  induction ls with
  | nil => rfl
  | cons l ls ih =>
    have hline : l.toList.count '\n' = 0 := List.count_eq_zero.mpr (hl l List.mem_cons_self)
    have hrest := ih fun k hk => hl k (List.mem_cons_of_mem l hk)
    rw [toList_closed_cons, List.count_append, List.count_cons_self, hline, hrest, List.length_cons,
      Nat.zero_add]

theorem getLast?_closed {ls : List String} (h : ls ≠ []) : (closed ls).toList.getLast? = some '\n' := by
  rcases ls.eq_nil_or_concat' with rfl | ⟨ls, l, rfl⟩
  · exact absurd rfl h
  · simp [closed]

end AffineSearch.Text
