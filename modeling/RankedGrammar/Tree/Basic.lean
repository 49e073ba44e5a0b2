import RankedGrammar.Diagnostic.Expectations

/-!
Parse trees. All nodes of a run live in one table and refer to each other by index: children in
order, and the parent. Nodes of discarded attempts stay in the table but are not reachable from
the root, which is node 0.
-/
namespace RankedGrammar

abbrev NodeId := Nat

/-- How a node came about. Wrappers and literals are transient: collapsing the tree removes the
one and turns the other into terminals. -/
inductive Role where
  | plain
  | wrapper (caption : String)
  | literal (text : String)
  | terminal (text : String)
deriving DecidableEq

namespace Role

def attached? : Role → Option String
  | plain => none
  | wrapper caption => some caption
  | literal text => some text
  | terminal text => some text

def isWrapper : Role → Bool
  | wrapper _ => true
  | _ => false

def isTransient : Role → Bool
  | wrapper _ => true
  | literal _ => true
  | _ => false

def isLiteral : Role → Bool
  | literal _ => true
  | terminal _ => true
  | _ => false

end Role

/-- One attempt to match a rule at a place of the source. -/
structure Node where
  name : String
  parent : Option NodeId
  role : Role
  /-- The name was found among the rules. -/
  resolved : Bool
  start : Nat
  /-- The cursor, which moves on while the rule matches. -/
  point : Nat
  children : List NodeId
  /-- The text taken by the node itself. -/
  literal : Option String
  /-- What the node itself expected. -/
  expected : Expectations
  matched : Bool
  consumed : Bool
  consumedChildren : Nat
deriving DecidableEq

namespace Node

def fresh (name : String) (parent : Option NodeId) (role : Role) (resolved : Bool)
    (start : Nat) : Node where
  name := name
  parent := parent
  role := role
  resolved := resolved
  start := start
  point := start
  children := []
  literal := none
  expected := .empty
  matched := false
  consumed := false
  consumedChildren := 0

instance : Inhabited Node := ⟨fresh "" none .plain false 0⟩

end Node

structure Tree where
  nodes : Array Node
deriving DecidableEq

namespace Tree

def root : NodeId := 0

def single (n : Node) : Tree := ⟨#[n]⟩

/-- The number of nodes ever made. -/
def size (t : Tree) : Nat := t.nodes.size

def node (t : Tree) (id : NodeId) : Node := t.nodes[id]?.getD default

def modify (t : Tree) (id : NodeId) (f : Node → Node) : Tree := ⟨t.nodes.modify id f⟩

/-- Adds a node, whose identifier is the size before. -/
def push (t : Tree) (n : Node) : Tree := ⟨t.nodes.push n⟩

@[simp] theorem size_modify (t : Tree) (id : NodeId) (f : Node → Node) :
    (t.modify id f).size = t.size := by
  simp [size, modify]

@[simp] theorem size_push (t : Tree) (n : Node) : (t.push n).size = t.size + 1 := by
  simp [size, push]

theorem node_modify_self (t : Tree) {id : NodeId} (f : Node → Node) (h : id < t.size) :
    (t.modify id f).node id = f (t.node id) := by
  simp only [size] at h
  simp only [node, modify, Array.getElem?_modify, if_pos, Array.getElem?_eq_getElem h,
    Option.map_some, Option.getD_some]

@[simp] theorem node_modify_of_ne (t : Tree) {id other : NodeId} (f : Node → Node)
    (h : id ≠ other) : (t.modify id f).node other = t.node other := by
  simp [node, modify, Array.getElem?_modify, h]

@[simp] theorem node_push_size (t : Tree) (n : Node) : (t.push n).node t.size = n := by
  simp [node, push, size]

theorem node_push_of_lt (t : Tree) (n : Node) {id : NodeId} (h : id < t.size) :
    (t.push n).node id = t.node id := by
  simp only [size] at h
  simp [node, push, Array.getElem?_push, Nat.ne_of_lt h]

end Tree

end RankedGrammar
