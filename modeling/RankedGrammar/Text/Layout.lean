/-!
Descriptions of values. A description is written on one line, or over many with one part to a line,
parts being indented by four spaces and followed by a comma.
-/
namespace RankedGrammar.Text

inductive Layout where
  | word (s : String)
  | list (items : List Layout)
  /-- Parts in parentheses after a name, which may be empty. -/
  | tuple (name : String) (parts : List Layout)
  /-- Fields in braces after a name. -/
  | record (name : String) (fields : List Layout)
  | field (label : String) (value : Layout)

namespace Layout

mutual

def inline : Layout → String
  | word s => s
  | list items => "[" ++ ", ".intercalate (inlines items) ++ "]"
  | tuple name parts => name ++ "(" ++ ", ".intercalate (inlines parts) ++ ")"
  | record name fields => name ++ " \x7b " ++ ", ".intercalate (inlines fields) ++ " \x7d"
  | field label value => label ++ ": " ++ value.inline

def inlines : List Layout → List String
  | [] => []
  | l :: ls => l.inline :: inlines ls

end

/-- The start of a line at a depth. -/
def margin (depth : Nat) : String := "".pushn ' ' (4 * depth)

mutual

/-- The description over many lines, where the first begins at `depth`. A list without items takes
one line. -/
def indented (depth : Nat) : Layout → String
  | word s => s
  | list [] => "[]"
  | list (l :: ls) => "[\n" ++ indentedParts (depth + 1) (l :: ls) ++ margin depth ++ "]"
  | tuple name parts => name ++ "(\n" ++ indentedParts (depth + 1) parts ++ margin depth ++ ")"
  | record name fields =>
    name ++ " \x7b\n" ++ indentedParts (depth + 1) fields ++ margin depth ++ "\x7d"
  | field label value => label ++ ": " ++ value.indented depth

def indentedParts (depth : Nat) : List Layout → String
  | [] => ""
  | l :: ls => margin depth ++ l.indented depth ++ ",\n" ++ indentedParts depth ls

end

def option : Option Layout → Layout
  | none => word "None"
  | some l => tuple "Some" [l]

end Layout

end RankedGrammar.Text
