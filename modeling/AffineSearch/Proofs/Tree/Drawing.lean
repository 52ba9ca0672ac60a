import AffineSearch.Proofs.Step.Text
import AffineSearch.Proofs.Text.Lines
import AffineSearch.Proofs.Tree.Addresses
import AffineSearch.Tree.Drawing

/-! A drawing has one line for each node, and the tree can be read back from it: trees drawn alike have the same
addresses, with the same label and the same mark of the goal at each of them. -/
namespace AffineSearch.Node
open Text

/-! ### Captions -/

/-- How a caption ends tells what kind it is. -/
theorem head?_back_caption (label : Option Step) (isGoal : Bool) :
    (back (caption label isGoal)).head? =
      some (if isGoal then ']' else if label.isSome then ')' else 'T') := by
  cases label <;> cases isGoal <;> simp [caption, Step.text, back]

theorem caption_inj {label label' : Option Step} {isGoal isGoal' : Bool}
    (h : caption label isGoal = caption label' isGoal') : label = label' ∧ isGoal = isGoal' := by
  have hlast := congrArg (fun t => (back t).head?) h
  simp only [head?_back_caption] at hlast
  have hgoal : isGoal = isGoal' := by
    cases isGoal <;> cases isGoal' <;> cases label <;> cases label' <;> simp_all
  subst hgoal
  have hplain : caption label false = caption label' false := by
    cases isGoal
    · exact h
    · simpa [caption] using h
  have hlast := congrArg (fun t => (back t).head?) hplain
  simp only [head?_back_caption] at hlast
  refine ⟨?_, rfl⟩
  cases label with
  | none =>
    cases label' with
    | none => rfl
    | some t => simp at hlast
  | some s =>
    cases label' with
    | none => simp at hlast
    | some t =>
      have htext : s.text = t.text := by simpa [caption] using hplain
      rw [Step.text_injective htext]

theorem newline_notMem_caption (label : Option Step) (isGoal : Bool) :
    '\n' ∉ (caption label isGoal).toList := by
  cases label <;> cases isGoal <;> simp [caption, Step.newline_notMem_text]

/-! ### One line for each node -/

/-- What connects a child to its parent. -/
def branch (isLast : Bool) : String := if isLast then "└─ " else "├─ "

/-- What stands below a branch, as far as the nodes below the child go. -/
def stem (isLast : Bool) : String := if isLast then "   " else "│  "

/-- What stands in front of the caption of the node at an address. -/
def indent (n : Node) : List Nat → String
  | [] => ""
  | [i] => branch (i + 1 = n.children.length)
  | i :: rest => stem (i + 1 = n.children.length) ++ n.children[i]?.elim "" (·.indent rest)

def lineAt (n : Node) (address : List Nat) : String :=
  n.indent address ++ (n.subtree? address).elim "" fun m => caption m.label m.isGoal

theorem hang_cons (isLast : Bool) (top : String) (below : List String) :
    hang isLast (top :: below) = (branch isLast ++ top) :: below.map (stem isLast ++ ·) := by
  cases isLast <;> rfl

theorem lineAt_nil (n : Node) : n.lineAt [] = caption n.label n.isGoal := by
  simp [lineAt, indent, subtree?]

theorem lineAt_singleton {n c : Node} {i : Nat} (h : n.children[i]? = some c) :
    n.lineAt [i] = branch (i + 1 = n.children.length) ++ c.lineAt [] := by
  simp [lineAt, indent, subtree?, h]

theorem lineAt_cons {n c : Node} {i : Nat} (h : n.children[i]? = some c) {rest : List Nat} (hr : rest ≠ []) :
    n.lineAt (i :: rest) = stem (i + 1 = n.children.length) ++ c.lineAt rest := by
  obtain ⟨j, rest, rfl⟩ := List.exists_cons_of_ne_nil hr
  simp [lineAt, indent, subtree?, h, String.append_assoc]

theorem lines_eq (n : Node) : n.lines = caption n.label n.isGoal :: linesIn n.children := by
  obtain ⟨label, isGoal, isErased, children⟩ := n
  rfl

theorem lines_ne_nil (n : Node) : n.lines ≠ [] := by
  rw [lines_eq]
  exact List.cons_ne_nil _ _

theorem linesIn_eq (ns : List Node) (i : Nat) :
    linesIn ns = (ns.zipIdx i).flatMap fun p => hang (p.2 + 1 = i + ns.length) p.1.lines := by
  induction ns generalizing i with
  | nil => rfl
  | cons n ns ih =>
    have hlast : decide (i + 1 = i + (n :: ns).length) = ns.isEmpty := by
      cases ns <;> simp
    have hlength : i + (n :: ns).length = i + 1 + ns.length := by
      rw [List.length_cons]
      omega
    rw [linesIn, List.zipIdx_cons, List.flatMap_cons, hlast, hlength, ih (i + 1)]

theorem lines_eq_map_addresses (n : Node) : n.lines = n.addresses.map n.lineAt := by
  induction n using induction_children with
  | node n ih =>
    have hchild : ∀ p ∈ n.children.zipIdx,
        hang (p.2 + 1 = 0 + n.children.length) p.1.lines =
          (p.1.addresses.map (p.2 :: ·)).map n.lineAt := by
      intro p hp
      have hc : n.children[p.2]? = some p.1 := List.mem_zipIdx_iff_getElem?.mp hp
      obtain ⟨below, hbelow, hne⟩ := exists_addresses_eq p.1
      have htop := lineAt_singleton hc
      have hrest : ∀ rest ∈ below, stem (p.2 + 1 = n.children.length) ++ p.1.lineAt rest =
          n.lineAt (p.2 :: rest) := fun rest hr => (lineAt_cons hc (hne rest hr)).symm
      rw [ih p.1 (List.mem_of_getElem? hc), hbelow, List.map_cons, hang_cons, Nat.zero_add, ← htop,
        List.map_map, List.map_map, List.map_cons]
      exact congrArg _ (List.map_congr_left hrest)
    rw [lines_eq, linesIn_eq n.children 0, List.flatMap_congr hchild, addresses_eq, List.map_cons, lineAt_nil,
      List.map_flatMap]

theorem length_lines (n : Node) : n.lines.length = n.numNodes := by
  rw [lines_eq_map_addresses, List.length_map, length_addresses]

theorem newline_notMem_indent (n : Node) (address : List Nat) : '\n' ∉ (n.indent address).toList := by
  induction address generalizing n with
  | nil => simp [indent]
  | cons i rest ih =>
    cases rest with
    | nil => cases hl : decide (i + 1 = n.children.length) <;> simp [indent, branch, hl]
    | cons j rest =>
      have hbelow : '\n' ∉ (n.children[i]?.elim "" (·.indent (j :: rest))).toList := by
        cases n.children[i]? with
        | none => simp
        | some c => exact ih c
      cases hl : decide (i + 1 = n.children.length) <;> simp [indent, stem, hl, hbelow]

theorem newline_notMem_of_mem_lines {n : Node} {line : String} (h : line ∈ n.lines) :
    '\n' ∉ line.toList := by
  rw [lines_eq_map_addresses] at h
  obtain ⟨address, -, rfl⟩ := List.mem_map.mp h
  have hindent := n.newline_notMem_indent address
  cases hm : n.subtree? address <;> simp [lineAt, hm, hindent, newline_notMem_caption]

/-! ### Reading a drawing back -/

/-- Whether a line belongs below the branch in front of it. -/
def isBelow (line : String) : Bool := line.toList.head?.any fun c => c = ' ' || c = '│'

theorem isBelow_stem (isLast : Bool) (t : String) : isBelow (stem isLast ++ t) = true := by
  cases isLast <;> simp [isBelow, stem]

theorem isBelow_branch (isLast : Bool) (t : String) : isBelow (branch isLast ++ t) = false := by
  cases isLast <;> simp [isBelow, branch]

theorem branch_append_inj {isLast isLast' : Bool} {t u : String}
    (h : branch isLast ++ t = branch isLast' ++ u) : isLast = isLast' ∧ t = u := by
  have hlist := congrArg String.toList h
  cases isLast <;> cases isLast' <;> simp [branch] at hlist
  · exact ⟨rfl, String.toList_inj.mp hlist⟩
  · exact ⟨rfl, String.toList_inj.mp hlist⟩

theorem stem_append_injective (isLast : Bool) : Function.Injective (stem isLast ++ ·) :=
  fun _ _ h => (String.append_right_inj _).mp h

/-- A block ends where a line does not belong below its branch. -/
theorem hang_append_inj {isLast isLast' : Bool} {block block' r s : List String} (hb : block ≠ [])
    (hb' : block' ≠ []) (hr : Stops isBelow r) (hs : Stops isBelow s)
    (h : hang isLast block ++ r = hang isLast' block' ++ s) : block = block' ∧ r = s := by
  obtain ⟨top, below, rfl⟩ := List.exists_cons_of_ne_nil hb
  obtain ⟨top', below', rfl⟩ := List.exists_cons_of_ne_nil hb'
  rw [hang_cons, hang_cons, List.cons_append, List.cons_append] at h
  obtain ⟨htop, hrest⟩ := List.cons.inj h
  obtain ⟨rfl, rfl⟩ := branch_append_inj htop
  have hstem (lines : List String) : ∀ line ∈ lines.map (stem isLast ++ ·), isBelow line = true := by
    intro line hline
    obtain ⟨t, -, rfl⟩ := List.mem_map.mp hline
    exact isBelow_stem isLast t
  obtain ⟨hbelow, hrs⟩ := run_append_inj (hstem below) (hstem below') hr hs hrest
  rw [List.map_injective_iff.mpr (stem_append_injective isLast) hbelow]
  exact ⟨rfl, hrs⟩

/-- The lines of neighbours, hung below their parent. -/
def hangAll : List (List String) → List String
  | [] => []
  | block :: rest => hang rest.isEmpty block ++ hangAll rest

theorem linesIn_eq_hangAll (ns : List Node) : linesIn ns = hangAll (ns.map lines) := by
  induction ns with
  | nil => rfl
  | cons n ns ih => rw [linesIn, List.map_cons, hangAll, List.isEmpty_map, ih]

theorem hang_ne_nil {isLast : Bool} {block : List String} (hb : block ≠ []) : hang isLast block ≠ [] := by
  obtain ⟨top, below, rfl⟩ := List.exists_cons_of_ne_nil hb
  rw [hang_cons]
  exact List.cons_ne_nil _ _

theorem stops_hangAll {blocks : List (List String)} (h : ∀ block ∈ blocks, block ≠ []) :
    Stops isBelow (hangAll blocks) := by
  cases blocks with
  | nil => simp [hangAll, Stops]
  | cons block rest =>
    obtain ⟨top, below, rfl⟩ := List.exists_cons_of_ne_nil (h block List.mem_cons_self)
    rw [hangAll, hang_cons]
    simp [Stops, isBelow_branch]

theorem hangAll_inj {xs ys : List (List String)} (hx : ∀ x ∈ xs, x ≠ []) (hy : ∀ y ∈ ys, y ≠ [])
    (h : hangAll xs = hangAll ys) : xs = ys := by
  induction xs generalizing ys with
  | nil =>
    cases ys with
    | nil => rfl
    | cons y ys =>
      have hnil := (List.append_eq_nil_iff.mp h.symm).1
      exact absurd hnil (hang_ne_nil (hy y List.mem_cons_self))
  | cons x xs ih =>
    cases ys with
    | nil =>
      have hnil := (List.append_eq_nil_iff.mp h).1
      exact absurd hnil (hang_ne_nil (hx x List.mem_cons_self))
    | cons y ys =>
      have hxs : ∀ x ∈ xs, x ≠ [] := fun z hz => hx z (List.mem_cons_of_mem x hz)
      have hys : ∀ y ∈ ys, y ≠ [] := fun z hz => hy z (List.mem_cons_of_mem y hz)
      rw [hangAll, hangAll] at h
      obtain ⟨hxy, hrest⟩ := hang_append_inj (hx x List.mem_cons_self) (hy y List.mem_cons_self)
        (stops_hangAll hxs) (stops_hangAll hys) h
      rw [hxy, ih hxs hys hrest]

theorem lines_ne_nil_of_mem_map {ns : List Node} : ∀ block ∈ ns.map lines, block ≠ [] := by
  intro block h
  obtain ⟨n, -, rfl⟩ := List.mem_map.mp h
  exact n.lines_ne_nil

theorem lines_eq_iff (a b : Node) :
    a.lines = b.lines ↔
      (a.label = b.label ∧ a.isGoal = b.isGoal) ∧ a.children.map lines = b.children.map lines := by
  rw [lines_eq a, lines_eq b, linesIn_eq_hangAll, linesIn_eq_hangAll, List.cons.injEq]
  constructor
  · intro h
    exact ⟨caption_inj h.1, hangAll_inj lines_ne_nil_of_mem_map lines_ne_nil_of_mem_map h.2⟩
  · intro h
    rw [h.1.1, h.1.2, h.2]
    exact ⟨rfl, rfl⟩

/-- What can be seen of a node. -/
def marks (n : Node) : Option Step × Bool := (n.label, n.isGoal)

theorem marks_eq_of_lines_eq {a b : Node} (h : a.lines = b.lines) (address : List Nat) :
    (a.subtree? address).map marks = (b.subtree? address).map marks := by
  induction address generalizing a b with
  | nil =>
    obtain ⟨⟨hlabel, hgoal⟩, -⟩ := (lines_eq_iff a b).mp h
    simp [subtree?, marks, hlabel, hgoal]
  | cons i rest ih =>
    have hchild : a.children[i]?.map lines = b.children[i]?.map lines := by
      rw [← List.getElem?_map, ← List.getElem?_map, ((lines_eq_iff a b).mp h).2]
    unfold subtree?
    cases ha : a.children[i]? <;> cases hb : b.children[i]? <;> simp [ha, hb] at hchild
    · rfl
    · exact ih hchild

theorem lines_eq_of_marks_eq {a b : Node}
    (h : ∀ address, (a.subtree? address).map marks = (b.subtree? address).map marks) : a.lines = b.lines := by
  induction a using induction_children generalizing b with
  | node a ih =>
    have hself : a.marks = b.marks := Option.some.inj (h [])
    have hchildren : a.children.map lines = b.children.map lines := by
      apply List.ext_getElem?
      intro i
      have hi := h [i]
      rw [List.getElem?_map, List.getElem?_map]
      cases ha : a.children[i]? with
      | none =>
        cases hb : b.children[i]? with
        | none => rfl
        | some d => simp [subtree?, ha, hb] at hi
      | some c =>
        cases hb : b.children[i]? with
        | none => simp [subtree?, ha, hb] at hi
        | some d =>
          have hbelow : ∀ address, (c.subtree? address).map marks = (d.subtree? address).map marks := by
            intro address
            rw [← subtree?_cons ha, ← subtree?_cons hb]
            exact h (i :: address)
          exact congrArg some (ih c (List.mem_of_getElem? ha) hbelow)
    exact (lines_eq_iff a b).mpr ⟨Prod.mk.inj hself, hchildren⟩

/-- The text of a tree has a line for each node, in pre-order. Equal texts show trees of one shape with
the same labels and the same marks of the goal. No two steps are written alike. -/
theorem drawing_faithful :
    Function.Injective Step.text ∧
    (∀ n : Node, ∃ order : List (List Nat), order.Pairwise (List.Lex (· < ·)) ∧
      (∀ address, address ∈ order ↔ (n.subtree? address).isSome = true) ∧
      n.drawing = closed (order.map n.lineAt) ∧ order.length = n.numNodes) ∧
    (∀ n : Node, n.drawing.toList.count '\n' = n.numNodes ∧ n.drawing.toList.getLast? = some '\n') ∧
    ∀ a b : Node, a.drawing = b.drawing ↔
      ∀ address, (a.subtree? address).map marks = (b.subtree? address).map marks := by
  have hclosed (n : Node) : n.drawing = closed n.lines := rfl
  have hlines (n : Node) : ∀ line ∈ n.lines, '\n' ∉ line.toList := fun _ => newline_notMem_of_mem_lines
  refine ⟨Step.text_injective, ?_, ?_, ?_⟩
  · intro n
    refine ⟨n.addresses, n.addresses_pairwise_lex, fun _ => mem_addresses, ?_, n.length_addresses⟩
    rw [hclosed, lines_eq_map_addresses]
  · intro n
    rw [hclosed, count_closed (hlines n), length_lines]
    exact ⟨rfl, getLast?_closed n.lines_ne_nil⟩
  · intro a b
    constructor
    · intro h
      exact marks_eq_of_lines_eq (closed_inj (hlines a) (hlines b) h)
    · intro h
      rw [hclosed, hclosed, lines_eq_of_marks_eq h]

example :
    let below : Node := ⟨some (.unroll 0), true, false, []⟩
    (Node.mk none false false [⟨some (.unroll 0), false, false, [below]⟩,
      ⟨some (.decompose 0), true, false, []⟩]).drawing =
      "ROOT\n├─ UNROLL(d0)\n│  └─ UNROLL(d0) [target]\n└─ DECOMPOSE(0) [target]\n" := by
  decide +kernel

end AffineSearch.Node
