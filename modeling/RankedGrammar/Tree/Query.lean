import RankedGrammar.Rule.Names
import RankedGrammar.Tree.Basic

/-! Questions about the part of a tree below a node, and about the nodes above it. -/
namespace RankedGrammar.Tree

/-- The nodes of a stack, each followed by what is below it, at most `fuel` of them. -/
def preorder (t : Tree) : Nat → List NodeId → List NodeId
  | 0, _ => []
  | _ + 1, [] => []
  | fuel + 1, id :: rest => id :: t.preorder fuel ((t.node id).children ++ rest)

/-- A node and all below it, depth first and from left to right. No node lies below two others,
so there are no more of them than nodes in the tree. -/
def descendants (t : Tree) (id : NodeId) : List NodeId := t.preorder t.size [id]

def isValid (t : Tree) (id : NodeId) : Bool := (t.descendants id).all fun n => (t.node n).matched

/-- The text taken by the node and then by all below it. -/
def value (t : Tree) (id : NodeId) : String :=
  String.join ((t.descendants id).filterMap fun n => (t.node n).literal)

def stop (t : Tree) (id : NodeId) : Nat :=
  (t.descendants id).foldl (fun furthest n => max furthest (t.node n).point) 0

def weight (t : Tree) (id : NodeId) : Nat :=
  (t.descendants id).countP fun n => (t.node n).name ≠ blankName

def expected (t : Tree) (id : NodeId) : Expectations :=
  (t.descendants id).foldl (fun s n => s.merge (t.node n).expected) .empty

/-- The first node of a name below a node, in the order of `descendants`. -/
def findBelow? (t : Tree) (id : NodeId) (name : String) : Option NodeId :=
  (t.descendants id).tail.find? fun n => (t.node n).name = name

def parents (t : Tree) : Nat → NodeId → List NodeId
  | 0, _ => []
  | fuel + 1, id =>
    match (t.node id).parent with
    | none => []
    | some p => p :: t.parents fuel p

def ancestors (t : Tree) (id : NodeId) : List NodeId := t.parents t.size id

def findAbove? (t : Tree) (id : NodeId) (name : String) : Option NodeId :=
  (t.ancestors id).find? fun n => (t.node n).name = name

/-- The nodes that belong to the tree proper. -/
def reachable (t : Tree) : List NodeId := t.descendants root

def hasTransient (t : Tree) : Bool := t.reachable.any fun n => (t.node n).role.isTransient

end RankedGrammar.Tree
