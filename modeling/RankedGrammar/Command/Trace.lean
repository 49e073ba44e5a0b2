import RankedGrammar.Match.Parse
import RankedGrammar.Tree.Describe

/-! What a run reports of itself on the error stream. -/
namespace RankedGrammar.Command

/-- A name between quotes, as it is. -/
def named (key name : String) : String := key ++ "=\"" ++ name ++ "\""

/-- The line for an event. An unknown rule is reported the first time in any case, all else only in
debug mode. -/
def eventLine? (debug : Bool) : Event → Option String
  | .enter _ rule start depth =>
    if debug then
      some ("[eval:enter] " ++ named "rule" rule ++ " at=" ++ toString start ++ " depth=" ++
        toString depth)
    else none
  | .leave _ rule matched start point =>
    if debug then
      some ("[eval:exit] " ++ named "rule" rule ++ " matched=" ++ toString matched ++ " span=" ++
        spanText start point)
    else none
  | .tooDeep _ rule limit =>
    if debug then some ("[eval:too_deep] " ++ named "rule" rule ++ " limit=" ++ toString limit)
    else none
  | .unresolved _ rule p again =>
    if again then none
    else
      some ("[grammar:unresolved] " ++ named "rule" rule ++ " line=" ++ toString p.line ++
        " column=" ++ toString p.column ++ " (treated as no match)")
  | .adopt _ rule number trials weight =>
    if debug then
      some ("[alt:winner] " ++ named "rule" rule ++ " candidate=" ++ toString number ++ "/" ++
        toString trials ++ " weight=" ++ toString weight)
    else none
  | .tally .. => none
  | .probe _ => none

def eventLines (debug : Bool) (journal : Array Event) : List String :=
  journal.toList.filterMap (eventLine? debug)

def parseLine (rule : String) (p : RawParse) : String :=
  "[parse] " ++ named "rule" rule ++ " valid=" ++ toString p.valid ++ " end=" ++
    toString (p.tree.stop Tree.root) ++ " nodes=" ++ toString p.counters.nodesCreated ++
    " evaluations=" ++ toString p.counters.evaluations ++ " deepest=" ++
    toString p.counters.deepest

def faultLine (rule : String) (fault : TooDeep) : String :=
  "[parse] " ++ named "rule" rule ++ " fault=\"" ++ fault.message ++ "\""

def collapseLine (c : CollapseCounts) : String :=
  "[normalize] spliced=" ++ toString c.spliced ++ " terminals=" ++ toString c.terminals

def eatLine (n : Node) : String :=
  "[walk:eat] " ++ named "node" n.name ++ " span=" ++ spanText n.start n.point

end RankedGrammar.Command
