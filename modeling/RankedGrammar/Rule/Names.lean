/-! Names with a meaning of their own. -/
namespace RankedGrammar

/-- The name of the rule that matches the text attached to a literal. -/
def literalName : String := "LITERAL"

/-- The name of the empty match, which weighs nothing. -/
def blankName : String := "BLANK"

/-- The name that a literal bears once the tree is collapsed. -/
def terminalName : String := "TERMINAL"

end RankedGrammar
