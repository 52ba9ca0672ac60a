import AffineSearch.Document.Step
import AffineSearch.Proofs.Expr.Variables
import AffineSearch.Proofs.Pattern.Operators

/-! A value is read back from its own document. Its counts must lie in the range that documents have for them,
and nothing else about it matters: neither how it is built nor whether it is well-formed. -/
namespace AffineSearch

/-- The range of positions and sizes. -/
def IsCount (n : Nat) : Prop := n < 0x10000000000000000

namespace Document
variable {α : Type}

theorem count?_int_eq_some_iff {n : Nat} : (int n).count? = some n ↔ IsCount n := by
  simp only [count?, IsCount]
  split
  · next h => simp; omega
  · next h => simp; omega

/-- A list is read back if each of its items is. -/
theorem list?_map_eq_some_iff {write : α → Document} {read : Document → Option α} {as : List α} :
    (arr (as.map write)).list? read = some as ↔ ∀ a ∈ as, read (write a) = some a := by
  rw [list?, mapM_eq_some_iff, List.map_map]
  exact List.map_inj_left

end Document

theorem Op.ofDocument?_toDocument (op : Op) : ofDocument? op.toDocument = some op := by
  cases op <;> rfl

theorem Kind.ofDocument?_toDocument (k : Kind) : ofDocument? k.toDocument = some k := by
  cases k <;> rfl

theorem Mask.ofDocument?_toDocument (m : Mask) : ofDocument? m.toDocument = some m := by
  have hbits : (Document.arr (m.bits.map .bool)).list? Document.bool? = some m.bits :=
    Document.list?_map_eq_some_iff.mpr fun b _ => rfl
  rw [toDocument, ofDocument?, hbits]
  rfl

namespace Expr

theorem ofDocument?_binary_eq_some_iff {op : Op} {l r l' r' : Expr} :
    ofDocument? (binary op l r).toDocument = some (binary op l' r') ↔
      ofDocument? l.toDocument = some l' ∧ ofDocument? r.toDocument = some r' := by
  let members := [("op", op.toDocument), ("lhs", l.toDocument), ("rhs", r.toDocument)]
  have hop : Document.member? "op" members = some op.toDocument := rfl
  have hl : ofMember? "lhs" members = ofDocument? l.toDocument := by simp [members, ofMember?]
  have hr : ofMember? "rhs" members = ofDocument? r.toDocument := by simp [members, ofMember?]
  rw [toDocument, ofDocument?, hop, hl, hr]
  simp [Op.ofDocument?_toDocument, Option.bind_eq_some_iff]

theorem ofDocument?_toDocument_iff (e : Expr) :
    ofDocument? e.toDocument = some e ↔ e.VarsIn IsCount IsCount := by
  induction e with
  | dim p => simp [toDocument, ofDocument?, VarsIn, ← Document.count?_int_eq_some_iff]
  | symbol p => simp [toDocument, ofDocument?, VarsIn, ← Document.count?_int_eq_some_iff]
  | const c => simp [toDocument, ofDocument?, VarsIn, constOfDocument?, Word.ofInt?_eq_some_iff]
  | binary op l r hl hr => exact ofDocument?_binary_eq_some_iff.trans (and_congr hl hr)

end Expr

namespace IndexMap

/-- The sizes of the domain and the positions in the results are in range. The results need not stay within
the domain. -/
structure HasCounts (m : IndexMap) : Prop where
  numDims : IsCount m.numDims
  numSymbols : IsCount m.numSymbols
  results : ∀ e ∈ m.results, e.VarsIn IsCount IsCount

theorem ofDocument?_toDocument_iff (m : IndexMap) : ofDocument? m.toDocument = some m ↔ m.HasCounts := by
  have hread (dims symbols results : Document) :
      ofDocument? (.obj [("num_dims", dims), ("num_symbols", symbols), ("results", results)]) = some m ↔
        dims.count? = some m.numDims ∧ symbols.count? = some m.numSymbols ∧
          results.list? Expr.ofDocument? = some m.results := by
    have hfields : (Document.obj [("num_dims", dims), ("num_symbols", symbols),
        ("results", results)]).fields? ["num_dims", "num_symbols", "results"] =
        some [dims, symbols, results] := rfl
    obtain ⟨numDims, numSymbols, es⟩ := m
    rw [ofDocument?, hfields]
    simp only [Option.pure_def, Option.bind_eq_bind, Option.bind_eq_some_iff, Option.some.injEq, mk.injEq]
    constructor
    · rintro ⟨_, hd, _, hs, _, he, rfl, rfl, rfl⟩
      exact ⟨hd, hs, he⟩
    · rintro ⟨hd, hs, he⟩
      exact ⟨_, hd, _, hs, _, he, rfl, rfl, rfl⟩
  have hresults : (Document.arr (m.results.map Expr.toDocument)).list? Expr.ofDocument? =
      some m.results ↔ ∀ e ∈ m.results, e.VarsIn IsCount IsCount :=
    Document.list?_map_eq_some_iff.trans (forall₂_congr fun e _ => e.ofDocument?_toDocument_iff)
  rw [toDocument, hread, Document.count?_int_eq_some_iff, Document.count?_int_eq_some_iff, hresults]
  exact ⟨fun ⟨hd, hs, he⟩ => ⟨hd, hs, he⟩, fun ⟨hd, hs, he⟩ => ⟨hd, hs, he⟩⟩

end IndexMap

theorem Pattern.ofDocument?_toDocument_iff (p : Pattern) :
    ofDocument? p.toDocument = some p ↔ ∀ m ∈ p.maps, m.HasCounts := by
  have hread (maps kinds : Document) :
      ofDocument? (.obj [("index_maps", maps), ("iterator_kinds", kinds)]) = some p ↔
        maps.list? IndexMap.ofDocument? = some p.maps ∧ kinds.list? Kind.ofDocument? = some p.kinds := by
    have hfields : (Document.obj [("index_maps", maps), ("iterator_kinds", kinds)]).fields?
        ["index_maps", "iterator_kinds"] = some [maps, kinds] := rfl
    cases p
    rw [ofDocument?, hfields]
    simp [Option.bind_eq_some_iff]
  have hmaps : (Document.arr (p.maps.map IndexMap.toDocument)).list? IndexMap.ofDocument? =
      some p.maps ↔ ∀ m ∈ p.maps, m.HasCounts :=
    Document.list?_map_eq_some_iff.trans (forall₂_congr fun m _ => m.ofDocument?_toDocument_iff)
  have hkinds : (Document.arr (p.kinds.map Kind.toDocument)).list? Kind.ofDocument? = some p.kinds :=
    Document.list?_map_eq_some_iff.mpr fun k _ => k.ofDocument?_toDocument
  rw [toDocument, hread, hmaps]
  exact and_iff_left hkinds

namespace Step

/-- The positions among the parameters are in range. -/
def HasCounts : Step → Prop
  | unroll d => IsCount d
  | dropSymbol s => IsCount s
  | mergeDims d1 d2 => IsCount d1 ∧ IsCount d2
  | permute i j _ => IsCount i ∧ IsCount j
  | expand _ _ => True
  | decompose position => IsCount position

theorem ofDocument?_toDocument_iff (s : Step) : ofDocument? s.toDocument = some s ↔ s.HasCounts := by
  have hcount {n : Nat} : (Document.int n).count? = some n ↔ IsCount n := Document.count?_int_eq_some_iff
  cases s with
  | unroll d =>
    have hread (doc : Document) : ofDocument? (.obj [("Unroll", .obj [("dim", doc)])]) =
        some (unroll d) ↔ doc.count? = some d := by
      simp [ofDocument?, Document.member?, Option.bind_eq_some_iff]
    exact (hread _).trans hcount
  | dropSymbol s =>
    have hread (doc : Document) : ofDocument? (.obj [("DropSymbol", .obj [("symbol", doc)])]) =
        some (dropSymbol s) ↔ doc.count? = some s := by
      simp [ofDocument?, Document.member?, Option.bind_eq_some_iff]
    exact (hread _).trans hcount
  | mergeDims d1 d2 =>
    have hread (doc1 doc2 : Document) :
        ofDocument? (.obj [("MergeDims", .obj [("dim1", doc1), ("dim2", doc2)])]) =
          some (mergeDims d1 d2) ↔ doc1.count? = some d1 ∧ doc2.count? = some d2 := by
      simp [ofDocument?, Document.member?, Option.bind_eq_some_iff]
    exact (hread _ _).trans (and_congr hcount hcount)
  | permute i j mask =>
    have hread (doc1 doc2 docMask : Document) :
        ofDocument? (.obj [("Permutation", .obj [("positions", .arr [doc1, doc2]), ("mask", docMask)])]) =
          some (permute i j mask) ↔
        (doc1.count? = some i ∧ doc2.count? = some j) ∧ Mask.ofDocument? docMask = some mask := by
      simp only [ofDocument?, Document.member?, positionsOfDocument?, if_true, String.reduceEq, if_false,
        Option.pure_def, Option.bind_eq_bind, Option.bind_some, Option.bind_eq_some_iff, Option.some.injEq,
        permute.injEq, Prod.exists, Prod.mk.injEq, exists_eq_right_right]
      constructor
      · rintro ⟨_, _, hpositions, _, hmask, rfl, rfl, rfl⟩
        exact ⟨hpositions, hmask⟩
      · rintro ⟨hpositions, hmask⟩
        exact ⟨i, j, hpositions, mask, hmask, rfl, rfl, rfl⟩
    exact (hread _ _ _).trans ((and_iff_left mask.ofDocument?_toDocument).trans (and_congr hcount hcount))
  | expand kind mask =>
    have hread (docKind docMask : Document) :
        ofDocument? (.obj [("ExpandDims", .obj [("kind", docKind), ("mask", docMask)])]) =
          some (expand kind mask) ↔
        Kind.ofDocument? docKind = some kind ∧ Mask.ofDocument? docMask = some mask := by
      simp [ofDocument?, Document.member?, Option.bind_eq_some_iff]
    exact iff_of_true ((hread _ _).mpr ⟨kind.ofDocument?_toDocument, mask.ofDocument?_toDocument⟩) trivial
  | decompose position =>
    have hread (doc : Document) : ofDocument? (.obj [("DecomposeExpr", .obj [("position", doc)])]) =
        some (decompose position) ↔ doc.count? = some position := by
      simp [ofDocument?, Document.member?, Option.bind_eq_some_iff]
    exact (hread _).trans hcount

end Step

/-- Whatever is written is read back as it was, raw expressions and maps out of scope included, exactly if all
of its counts are in range. -/
theorem documents_round_trip :
    (∀ op : Op, Op.ofDocument? op.toDocument = some op) ∧
      (∀ e : Expr, Expr.ofDocument? e.toDocument = some e ↔ e.VarsIn IsCount IsCount) ∧
      (∀ m : IndexMap, IndexMap.ofDocument? m.toDocument = some m ↔ m.HasCounts) ∧
      (∀ k : Kind, Kind.ofDocument? k.toDocument = some k) ∧
      (∀ m : Mask, Mask.ofDocument? m.toDocument = some m) ∧
      (∀ p : Pattern, Pattern.ofDocument? p.toDocument = some p ↔ ∀ m ∈ p.maps, m.HasCounts) ∧
      ∀ s : Step, Step.ofDocument? s.toDocument = some s ↔ s.HasCounts :=
  ⟨Op.ofDocument?_toDocument, Expr.ofDocument?_toDocument_iff, IndexMap.ofDocument?_toDocument_iff,
    Kind.ofDocument?_toDocument, Mask.ofDocument?_toDocument, Pattern.ofDocument?_toDocument_iff,
    Step.ofDocument?_toDocument_iff⟩

example : [Op.add, .mul, .mod, .floorDiv, .ceilDiv].map Op.toDocument =
    [.str "Add", .str "Mul", .str "Mod", .str "FloorDiv", .str "CeilDiv"] := by rfl

example : (Expr.binary .mod (.binary .add (.dim 0) (.symbol 1)) (.const (-4))).toDocument =
    .obj [("Binary", .obj [("op", .str "Mod"),
      ("lhs", .obj [("Binary", .obj [("op", .str "Add"),
        ("lhs", .obj [("Dim", .int 0)]), ("rhs", .obj [("Symbol", .int 1)])])]),
      ("rhs", .obj [("Constant", .int (-4))])])] := by rfl

example : (IndexMap.mk 2 1 [.dim 1]).toDocument =
    .obj [("num_dims", .int 2), ("num_symbols", .int 1), ("results", .arr [.obj [("Dim", .int 1)]])] := by rfl

example : [Kind.parallel, .reduction].map Kind.toDocument = [.str "Parallel", .str "Reduction"] := by rfl

example : (Mask.mk [true, false]).toDocument = .arr [.bool true, .bool false] := by rfl

example : (Pattern.mk [⟨1, 0, []⟩] [.reduction]).toDocument =
    .obj [("index_maps", .arr [.obj [("num_dims", .int 1), ("num_symbols", .int 0), ("results", .arr [])]]),
      ("iterator_kinds", .arr [.str "Reduction"])] := by rfl

example : [Step.unroll 1, .dropSymbol 2, .mergeDims 0 1, .permute 0 2 ⟨[true]⟩, .expand .parallel ⟨[false]⟩,
      .decompose 3].map Step.toDocument =
    [.obj [("Unroll", .obj [("dim", .int 1)])],
      .obj [("DropSymbol", .obj [("symbol", .int 2)])],
      .obj [("MergeDims", .obj [("dim1", .int 0), ("dim2", .int 1)])],
      .obj [("Permutation", .obj [("positions", .arr [.int 0, .int 2]), ("mask", .arr [.bool true])])],
      .obj [("ExpandDims", .obj [("kind", .str "Parallel"), ("mask", .arr [.bool false])])],
      .obj [("DecomposeExpr", .obj [("position", .int 3)])]] := by rfl

end AffineSearch
