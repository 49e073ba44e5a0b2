/-! Coloured text for terminals. -/
namespace RankedGrammar.Command

inductive Ink where
  | bold
  | dim
  | red
  | green
  | yellow
  | blue
  | magenta
  | cyan
  | gray
deriving DecidableEq

def Ink.code : Ink → String
  | bold => "1"
  | dim => "2"
  | red => "31"
  | green => "32"
  | yellow => "33"
  | blue => "34"
  | magenta => "35"
  | cyan => "36"
  | gray => "90"

/-- The text in an ink, or as it is where colours are off. -/
def paint (color : Bool) (ink : Ink) (text : String) : String :=
  if color then "\x1b[" ++ ink.code ++ "m" ++ text ++ "\x1b[0m" else text

end RankedGrammar.Command
