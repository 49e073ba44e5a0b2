import RankedGrammar.Proofs.Tree.WellFormed
import RankedGrammar.Tree.Collapse

/-!
The collapse of a branch, by recursion and without a table: what stands for each child, and the
text that the wrappers among the children pass up.
-/
namespace RankedGrammar

abbrev Entry := NodeId × Node

theorem joinRecorded_none (a : Option String) : joinRecorded a none = a := by
  cases a <;> rfl

theorem joinRecorded_assoc (a b c : Option String) :
    joinRecorded (joinRecorded a b) c = joinRecorded a (joinRecorded b c) := by
  cases a <;> cases b <;> cases c <;> simp [joinRecorded, String.append_assoc]

theorem Role.isTransient_of_isWrapper {r : Role} (h : r.isWrapper = true) :
    r.isTransient = true := by
  cases r with
  | wrapper caption => rfl
  | plain => cases h
  | literal text => cases h
  | terminal text => cases h

theorem Role.isWrapper_eq_false {r : Role} (h : r.isTransient = false) : r.isWrapper = false := by
  by_contra hw
  rw [Role.isTransient_of_isWrapper (eq_true_of_ne_false hw)] at h
  cases h

namespace Node

/-- A literal becomes a terminal once, and nothing else changes. -/
theorem asTerminal_of_not_transient {n : Node} (h : n.role.isTransient = false) :
    n.asTerminal = n := by
  unfold asTerminal
  cases hr : n.role with
  | literal text => simp [hr, Role.isTransient] at h
  | plain => rfl
  | wrapper caption => rfl
  | terminal text => rfl

theorem asTerminal_asTerminal (n : Node) : n.asTerminal.asTerminal = n.asTerminal := by
  obtain ⟨name, parent, role⟩ := n
  cases role <;> rfl

theorem isWrapper_asTerminal (n : Node) : n.asTerminal.role.isWrapper = n.role.isWrapper := by
  obtain ⟨name, parent, role⟩ := n
  cases role <;> rfl

theorem asTerminal_vacated (n : Node) : n.vacated.asTerminal = n.asTerminal.vacated := by
  obtain ⟨name, parent, role⟩ := n
  cases role <;> rfl

end Node

namespace Branch

mutual

/-- The text that a child passes to the node above it: that of the wrappers opened in its place. -/
def passedUp : Branch Entry → Option String
  | mk e bs => if e.2.role.isWrapper then joinRecorded e.2.literal (absorbed bs) else none

/-- The text that a node gets from the wrappers opened below it, in the order of the source. -/
def absorbed : List (Branch Entry) → Option String
  | [] => none
  | b :: bs => joinRecorded b.passedUp (absorbed bs)

end

mutual

/-- What stands for a child of `parent`: the child itself, with all below it collapsed, or what
stands for the children of a wrapper. A literal is kept as a terminal. -/
def standIns (parent : NodeId) : Branch Entry → List (Branch Entry)
  | mk (id, n) bs =>
    if n.role.isWrapper then standInsAll parent bs
    else
      let kept := standInsAll id bs
      [mk (id, { n.asTerminal with
        parent := some parent
        children := kept.map (·.label.1)
        literal := joinRecorded n.literal (absorbed bs) }) kept]

def standInsAll (parent : NodeId) : List (Branch Entry) → List (Branch Entry)
  | [] => []
  | b :: bs => b.standIns parent ++ standInsAll parent bs

end

def collapsed : Branch Entry → Branch Entry
  | mk (id, n) bs =>
    let kept := standInsAll id bs
    mk (id, { n with
      children := kept.map (·.label.1)
      literal := joinRecorded n.literal (absorbed bs) }) kept

theorem absorbed_append (bs cs : List (Branch Entry)) :
    absorbed (bs ++ cs) = joinRecorded (absorbed bs) (absorbed cs) := by
  induction bs with
  | nil => rfl
  | cons b bs ih => rw [List.cons_append, absorbed, absorbed, ih, joinRecorded_assoc]

theorem absorbed_eq_none {bs : List (Branch Entry)} (h : ∀ b ∈ bs, b.passedUp = none) :
    absorbed bs = none := by
  induction bs with
  | nil => rfl
  | cons b bs ih =>
    rw [absorbed, h b List.mem_cons_self, ih fun x hx => h x (List.mem_cons_of_mem b hx)]
    rfl

theorem standInsAll_eq (parent : NodeId) (bs : List (Branch Entry)) :
    standInsAll parent bs = bs.flatMap (standIns parent) := by
  induction bs with
  | nil => simp [standInsAll]
  | cons b bs ih => simp [standInsAll, ih]

theorem absorbed_congr {ι : Type} {xs : List ι} {f g : ι → Branch Entry}
    (h : ∀ x ∈ xs, (f x).passedUp = (g x).passedUp) :
    absorbed (xs.map f) = absorbed (xs.map g) := by
  induction xs with
  | nil => rfl
  | cons x xs ih =>
    rw [List.map_cons, List.map_cons, absorbed, absorbed, h x List.mem_cons_self,
      ih fun y hy => h y (List.mem_cons_of_mem x hy)]

theorem standInsAll_congr {ι : Type} {xs : List ι} {f g : ι → Branch Entry} {parent : NodeId}
    (h : ∀ x ∈ xs, (f x).standIns parent = (g x).standIns parent) :
    standInsAll parent (xs.map f) = standInsAll parent (xs.map g) := by
  rw [standInsAll_eq, standInsAll_eq, List.flatMap_map, List.flatMap_map]
  exact List.flatMap_congr h

end Branch

namespace Tree

def entries (t : Tree) (id : NodeId) : Branch Entry := (t.branch id).map fun j => (j, t.node j)

theorem WellFormed.entries_eq {t : Tree} (h : t.WellFormed) (id : NodeId) :
    t.entries id = .mk (id, t.node id) ((t.node id).children.map t.entries) := by
  rw [entries, h.branch_eq, Branch.map_mk, List.map_map]
  rfl

/-- What stands for the children of a node, below `parent`. -/
def standInsBelow (t : Tree) (parent id : NodeId) : List (Branch Entry) :=
  Branch.standInsAll parent ((t.node id).children.map t.entries)

/-- The text of a node with that of the wrappers opened below it. -/
def gathered (t : Tree) (id : NodeId) : Option String :=
  joinRecorded (t.node id).literal (Branch.absorbed ((t.node id).children.map t.entries))

/-- What a node comes to in a collapsed tree, given its parent there. -/
def settled (t : Tree) (parent : Option NodeId) (id : NodeId) : Node :=
  { (t.node id).asTerminal with
    parent
    children := (t.standInsBelow id id).map (·.label.1)
    literal := t.gathered id }

namespace WellFormed

variable {t : Tree}

theorem passedUp_entries (h : t.WellFormed) (id : NodeId) :
    (t.entries id).passedUp = if (t.node id).role.isWrapper then t.gathered id else none := by
  rw [h.entries_eq, Branch.passedUp]
  rfl

theorem standIns_entries (h : t.WellFormed) (parent id : NodeId) :
    (t.entries id).standIns parent =
      if (t.node id).role.isWrapper then t.standInsBelow parent id
      else [.mk (id, t.settled (some parent) id) (t.standInsBelow id id)] := by
  rw [h.entries_eq, Branch.standIns]
  rfl

theorem absorbed_eq_none (h : t.WellFormed) {ids : List NodeId}
    (hids : ∀ c ∈ ids, (t.node c).role.isWrapper = false) :
    Branch.absorbed (ids.map t.entries) = none := by
  refine Branch.absorbed_eq_none fun b hb => ?_
  obtain ⟨c, hc, rfl⟩ := List.mem_map.1 hb
  rw [h.passedUp_entries, hids c hc]
  rfl

theorem collapsed_entries_root (h : t.WellFormed)
    (hrole : (t.node root).role.isTransient = false) :
    (t.entries root).collapsed =
      .mk (root, t.settled none root) (t.standInsBelow root root) := by
  have hsame := Node.asTerminal_of_not_transient hrole
  have hparent := h.root_parent
  rw [h.entries_eq, Branch.collapsed]
  unfold settled
  rw [hsame, ← hparent]
  rfl

end WellFormed

/-- A node comes to the same in the collapse of two tables, apart from its place there. -/
structure Agree (t t' : Tree) (a : Nat) : Prop where
  outcome : (t'.node a).asTerminal.vacated = (t.node a).asTerminal.vacated
  standInsBelow : ∀ parent, t'.standInsBelow parent a = t.standInsBelow parent a
  gathered : t'.gathered a = t.gathered a

theorem settled_eq (t : Tree) (parent : Option NodeId) (id : NodeId) :
    t.settled parent id = { (t.node id).asTerminal.vacated with
      parent
      children := (t.standInsBelow id id).map (·.label.1)
      literal := t.gathered id } := rfl

namespace Agree

variable {t t' : Tree} {a : Nat}

theorem settled (h : t.Agree t' a) (parent : Option NodeId) :
    t'.settled parent a = t.settled parent a := by
  rw [settled_eq, settled_eq, h.outcome, h.standInsBelow, h.gathered]

theorem isWrapper (h : t.Agree t' a) :
    (t'.node a).role.isWrapper = (t.node a).role.isWrapper := by
  have hrole := congrArg (fun n => n.role.isWrapper) h.outcome
  simpa only [Node.vacated, Node.isWrapper_asTerminal] using hrole

theorem passedUp (h : t.Agree t' a) (hwf : t.WellFormed) (hwf' : t'.WellFormed) :
    (t'.entries a).passedUp = (t.entries a).passedUp := by
  rw [hwf.passedUp_entries, hwf'.passedUp_entries, h.isWrapper, h.gathered]

theorem standIns (h : t.Agree t' a) (hwf : t.WellFormed) (hwf' : t'.WellFormed)
    (parent : NodeId) : (t'.entries a).standIns parent = (t.entries a).standIns parent := by
  rw [hwf.standIns_entries, hwf'.standIns_entries, h.isWrapper, h.standInsBelow, h.standInsBelow,
    h.settled]

/-- A node agrees if its children are the same and agree. -/
theorem of_children (hwf : t.WellFormed) (hwf' : t'.WellFormed)
    (houtcome : (t'.node a).asTerminal.vacated = (t.node a).asTerminal.vacated)
    (hliteral : (t'.node a).literal = (t.node a).literal)
    (hchildren : (t'.node a).children = (t.node a).children)
    (hbelow : ∀ c ∈ (t.node a).children, t.Agree t' c) : t.Agree t' a := by
  constructor
  · exact houtcome
  · intro parent
    unfold Tree.standInsBelow
    rw [hchildren]
    exact Branch.standInsAll_congr fun c hc => (hbelow c hc).standIns hwf hwf' parent
  · unfold Tree.gathered
    rw [hchildren, hliteral]
    congr 1
    exact Branch.absorbed_congr fun c hc => (hbelow c hc).passedUp hwf hwf'

end Agree

end Tree

end RankedGrammar
