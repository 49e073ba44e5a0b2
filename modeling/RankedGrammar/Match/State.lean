import RankedGrammar.Match.Journal
import RankedGrammar.Rule.Expr
import RankedGrammar.Rule.Rulebook
import RankedGrammar.Tree.Query

/-! The state of a run and the changes that rules make to it. -/
namespace RankedGrammar

/-- What stays the same during a run. -/
structure Context where
  source : Source
  rules : RuleIndex Expr
  limit : Nat := 256

/-- Rules nested beyond the limit, found out at `rule`. -/
structure TooDeep where
  limit : Nat
  rule : String
deriving DecidableEq

def TooDeep.message (e : TooDeep) : String :=
  "grammar too deep: recursion limit of " ++ toString e.limit ++
    " exceeded while evaluating `" ++ e.rule ++ "`"

namespace Node

def record (n : Node) (text : String) : Node :=
  { n with literal := some (n.literal.getD "" ++ text) }

def addExpected (n : Node) (e : Expectations) : Node := { n with expected := n.expected.merge e }

def expect (n : Node) (src : Source) (name : String) : Node :=
  n.addExpected (.single (src.position n.point) name)

end Node

structure Counters where
  nodesCreated : Nat
  evaluations : Nat
  alternations : Nat
  deepest : Nat
  /-- Names of rules that are not defined, in the order in which they were met. -/
  unresolved : List String
deriving DecidableEq

structure RunState where
  tree : Tree
  counters : Counters
  /-- What went wrong; once it is there no rule is run. -/
  fault : Option TooDeep
  journal : Array Event

namespace RunState

def start (ctx : Context) (rule : String) : RunState where
  tree := .single (.fresh rule none .plain (ctx.rules.rule? rule).isSome 0)
  counters := ⟨1, 0, 0, 0, []⟩
  fault := none
  journal := #[]

def node (s : RunState) (id : NodeId) : Node := s.tree.node id

def cursor (s : RunState) (id : NodeId) : Nat := (s.node id).point

def modify (s : RunState) (id : NodeId) (f : Node → Node) : RunState :=
  { s with tree := s.tree.modify id f }

def moveTo (s : RunState) (id : NodeId) (point : Nat) : RunState :=
  s.modify id fun n => { n with point }

def addExpected (s : RunState) (id : NodeId) (e : Expectations) : RunState :=
  s.modify id (·.addExpected e)

def childrenFrom (s : RunState) (id : NodeId) (base : Nat) : List NodeId :=
  (s.node id).children.drop base

def keepChildren (s : RunState) (id : NodeId) (base : Nat) : RunState :=
  s.modify id fun n => { n with children := n.children.take base }

def addChildren (s : RunState) (id : NodeId) (ids : List NodeId) : RunState :=
  s.modify id fun n => { n with children := n.children ++ ids }

/-- Makes a new last child at the cursor of a node; its identifier is the size of the tree. -/
def grow (s : RunState) (ctx : Context) (id : NodeId) (name : String) (role : Role) : RunState :=
  let child := Node.fresh name (some id) role (ctx.rules.rule? name).isSome (s.cursor id)
  let s := { s with
    tree := s.tree.push child
    counters := { s.counters with nodesCreated := s.counters.nodesCreated + 1 } }
  s.addChildren id [s.tree.size - 1]

def report (s : RunState) (e : Event) : RunState := { s with journal := s.journal.push e }

def noteAlternation (s : RunState) : RunState :=
  { s with counters := { s.counters with alternations := s.counters.alternations + 1 } }

def expectedOf (s : RunState) (ids : List NodeId) : Expectations :=
  ids.foldl (fun e n => e.merge (s.tree.expected n)) .empty

@[simp] theorem size_modify (s : RunState) (id : NodeId) (f : Node → Node) :
    (s.modify id f).tree.size = s.tree.size :=
  Tree.size_modify s.tree id f

theorem node_modify_self (s : RunState) {id : NodeId} (f : Node → Node) (h : id < s.tree.size) :
    (s.modify id f).node id = f (s.node id) :=
  Tree.node_modify_self s.tree f h

@[simp] theorem node_modify_of_ne (s : RunState) {id other : NodeId} (f : Node → Node)
    (h : id ≠ other) : (s.modify id f).node other = s.node other :=
  Tree.node_modify_of_ne s.tree f h

@[simp] theorem fault_modify (s : RunState) (id : NodeId) (f : Node → Node) :
    (s.modify id f).fault = s.fault := rfl

theorem cursor_moveTo_self (s : RunState) {id : NodeId} (point : Nat) (h : id < s.tree.size) :
    (s.moveTo id point).cursor id = point := by
  simp only [cursor, moveTo, node_modify_self s _ h]

@[simp] theorem size_grow (s : RunState) (ctx : Context) (id : NodeId) (name : String)
    (role : Role) : (s.grow ctx id name role).tree.size = s.tree.size + 1 := by
  simp [grow, addChildren]

theorem node_grow_of_ne (s : RunState) (ctx : Context) {id other : NodeId} (name : String)
    (role : Role) (h : id ≠ other) (hlt : other < s.tree.size) :
    (s.grow ctx id name role).node other = s.node other := by
  simp only [grow, addChildren, node_modify_of_ne _ _ h]
  exact Tree.node_push_of_lt s.tree _ hlt

end RunState

/-- A part of a rule at work on a node: it says whether it succeeds. -/
abbrev Step := RunState → Bool × RunState

end RankedGrammar
