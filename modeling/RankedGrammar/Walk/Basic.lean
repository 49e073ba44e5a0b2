import RankedGrammar.Tree.Collapse

/-!
Walks over a tree in post-order, children before their parent and from left to right. A walk
remembers the nodes it has handed out; the next one is found from the last of them.
-/
namespace RankedGrammar

namespace Tree

/-- Follows first children down, at most `fuel` times. -/
def descend (t : Tree) : Nat → NodeId → NodeId
  | 0, id => id
  | fuel + 1, id =>
    match (t.node id).children with
    | [] => id
    | c :: _ => t.descend fuel c

/-- The node where a walk of the part below `id` begins. -/
def firstLeaf (t : Tree) (id : NodeId) : NodeId := t.descend t.size id

def nextSibling? (t : Tree) (parent id : NodeId) : Option NodeId :=
  ((t.node parent).children.dropWhile (· ≠ id)).tail.head?

def successor? (t : Tree) (id : NodeId) : Option NodeId :=
  match (t.node id).parent with
  | none => none
  | some p =>
    match t.nextSibling? p id with
    | some s => some (t.firstLeaf s)
    | none => some p

end Tree

/-- A node that was handed out, and whether the visitor was told of it. -/
structure Visit where
  id : NodeId
  told : Bool
deriving DecidableEq

structure Walk where
  tree : Tree
  language : String
  /-- The nodes handed out, the last one first. -/
  history : List Visit

namespace Walk

def start (tree : Tree) (language : String) : Walk := ⟨tree, language, []⟩

/-- The walk from its beginning; what it marked in the tree stays. -/
def restart (w : Walk) : Walk := start w.tree w.language

def collapse (w : Walk) : Walk × CollapseCounts :=
  match w.tree.collapse with
  | (tree, counts) => (start tree w.language, counts)

def current (w : Walk) : Option NodeId := w.history.head?.map (·.id)

def nextAfter (w : Walk) : Option NodeId → Option NodeId
  | none => some (w.tree.firstLeaf Tree.root)
  | some id => w.tree.successor? id

def peek (w : Walk) : Option NodeId := w.nextAfter w.current

def upcoming (w : Walk) : Nat → Option NodeId → List NodeId
  | 0, _ => []
  | fuel + 1, cursor =>
    match w.nextAfter cursor with
    | none => []
    | some id => id :: w.upcoming fuel (some id)

def read (w : Walk) (name : String) : Option NodeId :=
  (w.upcoming w.tree.size w.current).find? fun n => (w.tree.node n).name = name

/-- Hands out a node: it is marked, and counted by its parent. -/
def handOut (w : Walk) (id : NodeId) (told : Bool) : Walk :=
  let tree := w.tree.modify id fun n => { n with consumed := true }
  let tree :=
    match (tree.node id).parent with
    | none => tree
    | some p => tree.modify p fun n => { n with consumedChildren := n.consumedChildren + 1 }
  { w with tree, history := ⟨id, told⟩ :: w.history }

def advance (w : Walk) (told : Bool) : Option NodeId × Walk :=
  match w.peek with
  | none => (none, w)
  | some id => (some id, w.handOut id told)

end Walk

end RankedGrammar
