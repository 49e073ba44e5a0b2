import RankedGrammar.Walk.Basic

/-!
Walks with a visitor, which is told of every node that is eaten. While it is told of a node, a
visitor may look at the walk and move it on itself, which may call upon it again; what it does is
written down as a routine.
-/
namespace RankedGrammar

/-- A series of requests to a walk, with data that the visitor may change at each of them. -/
inductive Routine (σ : Type) where
  | done (data : σ)
  | look (next : Walk → Routine σ)
  /-- Move on by a node without telling the visitor. -/
  | skip (next : Option NodeId → Routine σ)
  /-- Move on by a node and tell the visitor. -/
  | eat (data : σ) (next : Option NodeId → σ → Routine σ)
  /-- Eat all nodes that are left and count them. -/
  | execute (data : σ) (next : Nat → σ → Routine σ)
  /-- Eat until a node of a name has been eaten. -/
  | consume (name : String) (data : σ) (next : Option NodeId → σ → Routine σ)
  /-- Eat all nodes that are left on a copy of the walk. -/
  | fork (data : σ) (next : Nat → σ → Routine σ)
  | restart (next : Routine σ)
  | collapse (next : CollapseCounts → Routine σ)

abbrev Visitor (σ : Type) := NodeId → σ → Walk → Routine σ

abbrev Eater (σ : Type) := Walk → σ → Option NodeId × Walk × σ

namespace Eater

variable {σ : Type}

def execute (eat : Eater σ) : Nat → Walk → σ → Nat × Walk × σ
  | 0, w, data => (0, w, data)
  | fuel + 1, w, data =>
    match eat w data with
    | (none, w, data) => (0, w, data)
    | (some _, w, data) =>
      match eat.execute fuel w data with
      | (n, w, data) => (n + 1, w, data)

def consume (eat : Eater σ) (name : String) : Nat → Walk → σ → Option NodeId × Walk × σ
  | 0, w, data => (none, w, data)
  | fuel + 1, w, data =>
    match eat w data with
    | (none, w, data) => (none, w, data)
    | (some id, w, data) =>
      if (w.tree.node id).name = name then (some id, w, data)
      else eat.consume name fuel w data

end Eater

namespace Routine

variable {σ : Type}

def run (eat : Eater σ) (fuel : Nat) : Routine σ → Walk → Walk × σ
  | done data, w => (w, data)
  | look next, w => (next w).run eat fuel w
  | skip next, w =>
    match w.advance false with
    | (id, w) => (next id).run eat fuel w
  | .eat data next, w =>
    match eat w data with
    | (id, w, data) => (next id data).run eat fuel w
  | execute data next, w =>
    match eat.execute fuel w data with
    | (n, w, data) => (next n data).run eat fuel w
  | consume name data next, w =>
    match eat.consume name fuel w data with
    | (id, w, data) => (next id data).run eat fuel w
  | fork data next, w =>
    match eat.execute fuel w data with
    | (n, _, data) => (next n data).run eat fuel w
  | restart next, w => next.run eat fuel w.restart
  | collapse next, w =>
    match w.collapse with
    | (w, counts) => (next counts).run eat fuel w

end Routine

namespace Walk

variable {σ : Type}

/-- Eats a node, telling a visitor that may be called upon again within `levels` calls. -/
def eatWithin (v : Visitor σ) (fuel : Nat) : Nat → Eater σ
  | 0, w, data => (none, w, data)
  | levels + 1, w, data =>
    match w.advance true with
    | (none, w) => (none, w, data)
    | (some id, w) =>
      match (v id data w).run (eatWithin v fuel levels) fuel w with
      | (w, data) => (some id, w, data)

/-- The number of places where a walk over the tree may stand: before the first node or at a node,
with the tree as it is or collapsed. -/
def places (w : Walk) : Nat := 2 * (w.tree.size + 1)

/-- Carries out a routine for a visitor. Without a restart a node is handed out once; where the
place of the walk decides what the visitor asks of it, a place that recurs in a loop or in nested
calls recurs for ever. So a routine that ends has neither more turns nor more levels than places. -/
def perform (w : Walk) (v : Visitor σ) (r : Routine σ) : Walk × σ :=
  r.run (eatWithin v w.places w.places) w.places w

def execute (w : Walk) (v : Visitor σ) (data : σ) : Walk × σ :=
  w.perform v (.execute data fun _ data => .done data)

end Walk

end RankedGrammar
