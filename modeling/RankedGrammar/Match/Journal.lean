import RankedGrammar.Text.Source
import RankedGrammar.Tree.Basic

/-! What a run reports of itself while it goes on. -/
namespace RankedGrammar

structure Snapshot where
  label : String
  rule : String
  id : NodeId
  point : Nat
  atEnd : Bool
  remaining : String
  /-- The byte at the cursor. -/
  here : Option UInt8
  /-- The byte two places on. -/
  beyond : Option UInt8
  attached : Option String
  isTransient : Bool
  sourceSize : Nat
deriving DecidableEq

/-- Every attempt to run the rule of a node is reported once, as `enter`, `tooDeep` or
`unresolved`, as long as nothing has gone wrong before. -/
inductive Event where
  | enter (id : NodeId) (rule : String) (start depth : Nat)
  | leave (id : NodeId) (rule : String) (matched : Bool) (start point : Nat)
  | tooDeep (id : NodeId) (rule : String) (limit : Nat)
  /-- A rule is not defined; `again` if its name was met before. -/
  | unresolved (id : NodeId) (rule : String) (position : Position) (again : Bool)
  /-- An alternative is adopted: its number, counted from one, of how many, and its weight. -/
  | adopt (id : NodeId) (rule : String) (number trials weight : Nat)
  | tally (rule : String) (count point : Nat)
  | probe (s : Snapshot)
deriving DecidableEq

end RankedGrammar
