/-! JSON documents and what is read out of them. -/
namespace AffineSearch

/-- A number with a fraction or an exponent keeps its text. -/
inductive Document where
  | null
  | bool (value : Bool)
  | int (value : Int)
  | real (text : String)
  | str (text : String)
  | arr (items : List Document)
  | obj (members : List (String × Document))
  deriving Inhabited

namespace Document

def bool? : Document → Option Bool
  | bool b => some b
  | _ => none

/-- A position or count below 2^64. -/
def count? : Document → Option Nat
  | int v => if 0 ≤ v ∧ v < 0x10000000000000000 then some v.toNat else none
  | _ => none

/-- A name by itself, or as the only key of an object with nothing in it. -/
def name? : Document → Option String
  | str t => some t
  | obj [(t, null)] => some t
  | _ => none

def list? {α : Type} (read : Document → Option α) : Document → Option (List α)
  | arr items => items.mapM read
  | _ => none

/-- The first member of that name. -/
def member? (name : String) : List (String × Document) → Option Document
  | [] => none
  | (k, d) :: rest => if k = name then some d else member? name rest

/-- The members of these names, or as many items without names. -/
def fields? (names : List String) : Document → Option (List Document)
  | obj members => names.mapM (member? · members)
  | arr items => if items.length = names.length then some items else none
  | _ => none

end Document
end AffineSearch
