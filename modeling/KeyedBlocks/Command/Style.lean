/-!
Colours on a terminal. A text is painted by the codes of a style before it and a reset behind it.
-/
namespace KeyedBlocks

inductive Style
  | bold
  | dimmed
  | green
  | yellow
  | cyan
  /-- What marks a success. -/
  | boldGreen
  deriving DecidableEq, Repr

namespace Style

def code : Style → String
  | bold => "1"
  | dimmed => "2"
  | green => "32"
  | yellow => "33"
  | cyan => "36"
  | boldGreen => "1;32"

def paint (style : Style) (color : Bool) (text : String) : String :=
  if color then "\x1b[" ++ style.code ++ "m" ++ text ++ "\x1b[0m" else text

end Style

end KeyedBlocks
