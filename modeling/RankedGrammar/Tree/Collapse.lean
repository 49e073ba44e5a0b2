import RankedGrammar.Tree.Query

/-!
Collapsing a tree. Every wrapper is replaced, among the children of its parent, by its own
children, and the text that it took goes to the parent; every literal becomes a terminal. Nothing
transient is left in the tree, and the wrappers stay in the table without parent, children and text.
-/
namespace RankedGrammar

structure CollapseCounts where
  /-- Wrappers replaced by their children. -/
  spliced : Nat
  /-- Literals turned into terminals. -/
  terminals : Nat
deriving DecidableEq

/-- Two recorded texts one after the other; nothing is recorded only if neither is. -/
def joinRecorded : Option String → Option String → Option String
  | none, b => b
  | some a, none => some a
  | some a, some b => some (a ++ b)

namespace Node

def asTerminal (n : Node) : Node :=
  match n.role with
  | .literal text => { n with name := terminalName, role := .terminal text }
  | _ => n

/-- The node when its children and its text have gone to another. -/
def vacated (n : Node) : Node := { n with parent := none, children := [], literal := none }

end Node

namespace Tree

/-- Makes the listed nodes children of `parent` as far as they know themselves. -/
def adopt (t : Tree) (parent : NodeId) (ids : List NodeId) : Tree :=
  ids.foldl (fun t c => t.modify c fun n => { n with parent := some parent }) t

/-- Puts the children of the wrapper `w`, which is the child of `id` at `pos`, in its place, and
gives its text to `id`. -/
def splice (t : Tree) (id : NodeId) (pos : Nat) (w : NodeId) : Tree :=
  let wrapper := t.node w
  ((t.adopt id wrapper.children).modify w Node.vacated).modify id fun n =>
    { n with
      children := n.children.take pos ++ wrapper.children ++ n.children.drop (pos + 1)
      literal := joinRecorded n.literal wrapper.literal }

/-- Goes through the children of a node from `pos` on until none of them is transient, with at most
`fuel` looks at a child. What a wrapper leaves in its place is looked at again. -/
def scan (id : NodeId) : Nat → Nat → Tree → CollapseCounts → Tree × CollapseCounts
  | 0, _, t, counts => (t, counts)
  | fuel + 1, pos, t, counts =>
    match (t.node id).children[pos]? with
    | none => (t, counts)
    | some c =>
      match (t.node c).role with
      | .wrapper _ =>
        scan id fuel pos (t.splice id pos c) { counts with spliced := counts.spliced + 1 }
      | .literal _ =>
        scan id fuel (pos + 1) (t.modify c Node.asTerminal)
          { counts with terminals := counts.terminals + 1 }
      | _ => scan id fuel (pos + 1) t counts

/-- Collapses below every node of a stack, at most `fuel` of them. A look at a child passes it or
empties it for good, so a node has fewer looks than the tree has nodes. -/
def collapseFrom : Nat → List NodeId → Tree → CollapseCounts → Tree × CollapseCounts
  | 0, _, t, counts => (t, counts)
  | _ + 1, [], t, counts => (t, counts)
  | fuel + 1, id :: ids, t, counts =>
    match scan id t.size 0 t counts with
    | (t, counts) => collapseFrom fuel ((t.node id).children ++ ids) t counts

/-- The tree without transient nodes, and what had to be changed. -/
def collapse (t : Tree) : Tree × CollapseCounts := collapseFrom t.size [root] t ⟨0, 0⟩

end Tree

end RankedGrammar
