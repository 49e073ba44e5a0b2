import RankedGrammar.Diagnostic.ParseError
import RankedGrammar.Match.Attempt
import RankedGrammar.Tree.Collapse

/-! Runs of a rule over a whole source, with and without collapsing the tree. -/
namespace RankedGrammar

/-- A run that went too deep, with what it reported before and after. -/
structure Aborted where
  fault : TooDeep
  journal : Array Event

structure RawParse where
  tree : Tree
  counters : Counters
  journal : Array Event

structure Parse where
  /-- The tree, collapsed unless that was not wanted. -/
  tree : Tree
  /-- The root and everything below it matched. -/
  valid : Bool
  /-- What was expected anywhere in the tree before it was collapsed. -/
  expected : Expectations
  /-- The furthest place reached. -/
  stop : Position
  counters : Counters
  /-- What collapsing changed, if it was wanted. -/
  collapsed : Option CollapseCounts
  journal : Array Event

/-- Runs a rule at the start of the source. A rule that does not match is no failure. -/
def Context.rawParse (ctx : Context) (rule : String) : Except Aborted RawParse :=
  match ctx.attempt ctx.limit Tree.root (.start ctx rule) with
  | (_, s) =>
    match s.fault with
    | some fault => .error ⟨fault, s.journal⟩
    | none => .ok ⟨s.tree, s.counters, s.journal⟩

namespace RawParse

def valid (p : RawParse) : Bool := p.tree.isValid Tree.root

def finish (p : RawParse) (source : Source) (collapse : Bool) : Parse :=
  let expected := p.tree.expected Tree.root
  let stop := source.position (p.tree.stop Tree.root)
  if collapse then
    match p.tree.collapse with
    | (tree, counts) => ⟨tree, p.valid, expected, stop, p.counters, some counts, p.journal⟩
  else ⟨p.tree, p.valid, expected, stop, p.counters, none, p.journal⟩

end RawParse

def Context.parse (ctx : Context) (rule : String) (collapse : Bool := true) :
    Except Aborted Parse :=
  (ctx.rawParse rule).map (·.finish ctx.source collapse)

namespace Parse

def value (p : Parse) : String := p.tree.value Tree.root

def counts (p : Parse) : CollapseCounts := p.collapsed.getD ⟨0, 0⟩

/-- Why the source is not valid: the furthest expectation, or where matching stopped if nothing
was expected anywhere. -/
def parseError? (p : Parse) : Option ParseError :=
  if p.valid then none else some (p.expected.parseError?.getD ⟨p.stop, []⟩)

end Parse

end RankedGrammar
