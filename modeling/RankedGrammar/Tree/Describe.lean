import RankedGrammar.Text.Layout
import RankedGrammar.Text.Quoted
import RankedGrammar.Tree.Query

/-! Descriptions of nodes for people. -/
namespace RankedGrammar
open Text (Layout quoted)

/-- What holds of a node, in the order in which it is listed. -/
def Node.flagNames (n : Node) : List String :=
  (if n.matched then ["MATCHED"] else []) ++ (if n.role.isTransient then ["TRANSIENT"] else []) ++
    (if n.role.isLiteral then ["LITERAL"] else []) ++ (if n.consumed then ["CONSUMED"] else [])

def Node.flagsText (n : Node) : String :=
  if n.flagNames.isEmpty then "0x0" else " | ".intercalate n.flagNames

def spanText (start stop : Nat) : String := toString start ++ ".." ++ toString stop

/-- The node by itself, up to its own cursor. -/
def Node.layout (n : Node) : Layout :=
  .record "NodeData" [
    .field "name" (.word (quoted n.name)),
    .field "span" (.word (spanText n.start n.point)),
    .field "children" (.word (toString n.children.length)),
    .field "grammar" (.option (if n.resolved then some (.word (quoted "<function>")) else none)),
    .field "literal" (.option (n.literal.map fun text => .word (quoted text))),
    .field "flags" (.tuple "NodeFlags" [.word n.flagsText])]

/-- The node with everything below it, up to the furthest cursor. -/
def Tree.layout (t : Tree) (id : NodeId) : Layout :=
  .record "NodeRef" [
    .field "name" (.word (quoted (t.node id).name)),
    .field "span" (.word (spanText (t.node id).start (t.stop id)))]

end RankedGrammar
