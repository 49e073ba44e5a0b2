import RankedGrammar.Command.Palette
import RankedGrammar.Match.Parse
import RankedGrammar.Tree.Describe
import RankedGrammar.Walk.Basic

/-! The report on a parse: the tree, the verdict, times and counts, and the nodes of a walk. -/
namespace RankedGrammar.Command

/-- How long the parts of a run took, in nanoseconds. -/
structure Timing where
  total : Nat
  matching : Nat
  collapse : Nat

/-- A time in whole microseconds. -/
def timeText (nanoseconds : Nat) : String := toString (nanoseconds / 1000) ++ "µs"

/-- The lines of a text without their line feeds, and without a return before a line feed. -/
def sourceLines : List Char → List (List Char)
  | [] => []
  | c :: cs =>
    if c = '\n' then [] :: sourceLines cs
    else if c = '\r' ∧ cs.head? = some '\n' then sourceLines cs
    else
      match sourceLines cs with
      | [] => [[c]]
      | l :: ls => (c :: l) :: ls

/-- The nodes of a stack with their depths, each followed by what is below it. -/
def outline (t : Tree) : Nat → List (NodeId × Nat) → List (NodeId × Nat)
  | 0, _ => []
  | _ + 1, [] => []
  | fuel + 1, (id, depth) :: rest =>
    (id, depth) :: outline t fuel ((t.node id).children.map (·, depth + 1) ++ rest)

/-- The start of a value in quotes; nothing for the empty value. -/
def valueText (color : Bool) (value : String) (leaf : Bool) : String :=
  if value.isEmpty then ""
  else
    paint color (if leaf then .green else .dim)
      (String.ofList ((Text.quoted value).toList.take 60))

def nameInk (n : Node) : Ink :=
  if n.role.isTransient then .magenta
  else if n.name = terminalName then .yellow
  else if n.matched then .blue
  else .red

def heading (color : Bool) (title : String) : List String :=
  ["", paint color .gray ("━━━ " ++ title ++ " ━━━")]

def treeLine (color : Bool) (t : Tree) (id : NodeId) (depth : Nat) : String :=
  let n := t.node id
  "  " ++ "".pushn ' ' (2 * depth) ++ paint color (nameInk n) n.name ++ " " ++
    paint color .dim (spanText n.start (t.stop id)) ++ " " ++
    valueText color (t.value id) n.children.isEmpty

def treeLines (color : Bool) (t : Tree) : List String :=
  (outline t t.size [(Tree.root, 0)]).map fun (id, depth) => treeLine color t id depth

/-- The line of the source where matching failed and a mark below the place. -/
def excerpt (color : Bool) (source : Source) (p : Position) : List String :=
  match (sourceLines source.chars)[p.line - 1]? with
  | none => []
  | some line =>
    ["    " ++ paint color .dim (String.ofList line),
      "    " ++ "".pushn ' ' p.column ++ paint color .red "^"]

def verdictLines (color : Bool) (source : Source) (p : Parse) : List String :=
  match p.parseError? with
  | none => ["  " ++ paint color .green "✓ valid"]
  | some e =>
    ("  " ++ paint color .red "✗" ++ " " ++ paint color .bold e.message) ::
      excerpt color source e.position

def unresolvedLines (color : Bool) (c : Counters) : List String :=
  if c.unresolved.isEmpty then []
  else
    ["  " ++ paint color .yellow "unresolved rules:" ++ " " ++ ", ".intercalate c.unresolved]

def timingLine (color : Bool) (timing : Timing) : String :=
  "  Total: " ++ paint color .green (timeText timing.total) ++
    "  │  Evaluate: " ++ paint color .cyan (timeText timing.matching) ++
    "  │  Normalize: " ++ paint color .dim (timeText timing.collapse)

def countsLine (color : Bool) (p : Parse) : String :=
  "  " ++ paint color .dim
    ("nodes: " ++ toString p.counters.nodesCreated ++
      "  evaluations: " ++ toString p.counters.evaluations ++
      "  alternations: " ++ toString p.counters.alternations ++
      "  deepest: " ++ toString p.counters.deepest ++
      "  spliced: " ++ toString p.counts.spliced)

def parseLines (color : Bool) (source : Source) (rule : String) (p : Parse) (timing : Timing) :
    List String :=
  let title := "⚙  Parsing " ++ rule ++ " (" ++ toString source.size ++ " bytes)"
  ["", paint color .bold (paint color .cyan title)] ++
    heading color "Tree" ++ treeLines color p.tree ++
    heading color "Result" ++ verdictLines color source p ++ unresolvedLines color p.counters ++
    heading color "Timing" ++ [timingLine color timing, countsLine color p, ""]

/-- A number in at least four columns. -/
def ordinal (n : Nat) : String :=
  let digits := toString n
  "".pushn ' ' (4 - digits.length) ++ digits

def walkLine (color : Bool) (w : Walk) (number : Nat) (id : NodeId) : String :=
  let n := w.tree.node id
  let parent := (n.parent.map fun p => (w.tree.node p).name).getD "-"
  "  " ++ paint color .gray (ordinal number) ++ " " ++ paint color .dim w.language ++ " " ++
    paint color .blue n.name ++ " " ++ paint color .dim ("<- " ++ parent) ++ " " ++
    valueText color (w.tree.value id) n.children.isEmpty

end RankedGrammar.Command
