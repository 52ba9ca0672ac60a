import AffineSearch.Document.Expr
import AffineSearch.Mask
import AffineSearch.Pattern.Basic

/-! Index maps, masks and patterns as documents. Reading checks no domain. -/
namespace AffineSearch

def IndexMap.toDocument (m : IndexMap) : Document :=
  .obj [("num_dims", .int m.numDims), ("num_symbols", .int m.numSymbols),
    ("results", .arr (m.results.map Expr.toDocument))]

def IndexMap.ofDocument? (d : Document) : Option IndexMap :=
  match d.fields? ["num_dims", "num_symbols", "results"] with
  | some [dims, symbols, results] => do
    return ⟨← dims.count?, ← symbols.count?, ← results.list? Expr.ofDocument?⟩
  | _ => none

def Mask.toDocument (m : Mask) : Document := .arr (m.bits.map .bool)

def Mask.ofDocument? (d : Document) : Option Mask := (d.list? Document.bool?).map Mask.mk

def Kind.toDocument : Kind → Document
  | .parallel => .str "Parallel"
  | .reduction => .str "Reduction"

def Kind.ofName? : String → Option Kind
  | "Parallel" => some .parallel
  | "Reduction" => some .reduction
  | _ => none

def Kind.ofDocument? (d : Document) : Option Kind := d.name?.bind ofName?

def Pattern.toDocument (p : Pattern) : Document :=
  .obj [("index_maps", .arr (p.maps.map IndexMap.toDocument)),
    ("iterator_kinds", .arr (p.kinds.map Kind.toDocument))]

def Pattern.ofDocument? (d : Document) : Option Pattern :=
  match d.fields? ["index_maps", "iterator_kinds"] with
  | some [maps, kinds] => do
    return ⟨← maps.list? IndexMap.ofDocument?, ← kinds.list? Kind.ofDocument?⟩
  | _ => none

end AffineSearch
