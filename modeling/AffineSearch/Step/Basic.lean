import AffineSearch.Mask
import AffineSearch.Pattern.Text

/-! Steps name one structural change of a pattern together with its parameters. -/
namespace AffineSearch

inductive Step where
  | unroll (dim : Nat)
  | dropSymbol (symbol : Nat)
  | mergeDims (dim1 dim2 : Nat)
  | permute (position1 position2 : Nat) (mask : Mask)
  | expand (kind : Kind) (mask : Mask)
  | decompose (position : Nat)
  deriving DecidableEq

namespace Step

def name : Step → String
  | unroll _ => "UNROLL"
  | dropSymbol _ => "DROP_SYMBOL"
  | mergeDims _ _ => "MERGE_DIMS"
  | permute _ _ _ => "PERMUTE"
  | expand _ _ => "EXPAND_DIMS"
  | decompose _ => "DECOMPOSE"

def parametersText : Step → String
  | unroll d => "d" ++ toString d
  | dropSymbol s => "s" ++ toString s
  | mergeDims d1 d2 => "d" ++ toString d1 ++ ", d" ++ toString d2
  | permute i j mask => toString i ++ ", " ++ toString j ++ "; mask=" ++ mask.text
  | expand kind mask => kind.text ++ "; mask=" ++ mask.text
  | decompose position => toString position

def text (s : Step) : String := s.name ++ "(" ++ s.parametersText ++ ")"

end Step
end AffineSearch
