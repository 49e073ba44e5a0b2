import RankedGrammar.Diagnostic.Expectations

/-! The report of a failed match: the furthest place with expectations and what they were. -/
namespace RankedGrammar

structure ParseError where
  position : Position
  expected : List String
deriving DecidableEq

def Expectations.parseError? (s : Expectations) : Option ParseError :=
  s.furthest?.map fun e => ⟨e.position, e.names⟩

def ParseError.message (e : ParseError) : String :=
  "expected one of \x7b" ++ ", ".intercalate e.expected ++ "\x7d at line " ++
    toString e.position.line ++ ", column " ++ toString e.position.column

end RankedGrammar
