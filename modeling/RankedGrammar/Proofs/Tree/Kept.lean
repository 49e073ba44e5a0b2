import RankedGrammar.Proofs.Tree.Collapse

/-!
What a collapse leaves of a node: read in the order of the source, the wrappers that are opened below
it give it their texts, and the nodes that stay become its children.
-/
namespace RankedGrammar

/-- What a node gets from below by a collapse. -/
inductive Piece where
  /-- The text taken by a wrapper that is opened. -/
  | opened (text : String)
  /-- A node that stays. -/
  | kept (id : NodeId)
deriving DecidableEq

namespace Piece

def opened? : Piece → Option String
  | opened text => some text
  | kept _ => none

def kept? : Piece → Option NodeId
  | opened _ => none
  | kept id => some id

end Piece

theorem getD_joinRecorded (a b : Option String) :
    (joinRecorded a b).getD "" = a.getD "" ++ b.getD "" := by
  cases a <;> cases b <;> simp [joinRecorded]

namespace Branch

mutual

/-- What a child comes to: itself, or what a wrapper took by itself and what its children come to.
-/
def pieces : Branch Entry → List Piece
  | mk e bs =>
    if e.2.role.isWrapper then .opened (e.2.literal.getD "") :: piecesAll bs else [.kept e.1]

def piecesAll : List (Branch Entry) → List Piece
  | [] => []
  | b :: bs => b.pieces ++ piecesAll bs

end

theorem piecesAll_eq (bs : List (Branch Entry)) : piecesAll bs = bs.flatMap pieces := by
  induction bs with
  | nil => rfl
  | cons b bs ih => rw [piecesAll, ih, List.flatMap_cons]

mutual

/-- The texts that are passed up are those of the pieces. -/
theorem getD_passedUp : ∀ b : Branch Entry,
    b.passedUp.getD "" = String.join (b.pieces.filterMap Piece.opened?)
  | mk e bs => by
    rw [passedUp, pieces]
    cases e.2.role.isWrapper with
    | false => rfl
    | true =>
      rw [if_pos rfl, if_pos rfl, getD_joinRecorded, getD_absorbed bs,
        List.filterMap_cons_some (show Piece.opened? _ = some _ from rfl), String.join_cons]

theorem getD_absorbed : ∀ bs : List (Branch Entry),
    (absorbed bs).getD "" = String.join ((piecesAll bs).filterMap Piece.opened?)
  | [] => rfl
  | b :: bs => by
    rw [absorbed, getD_joinRecorded, getD_passedUp b, getD_absorbed bs, piecesAll,
      List.filterMap_append, String.join_append]

end

mutual

/-- What stands for a child are the nodes among its pieces. -/
theorem map_id_standIns (parent : NodeId) : ∀ b : Branch Entry,
    (b.standIns parent).map (·.label.1) = b.pieces.filterMap Piece.kept?
  | mk (id, n) bs => by
    rw [standIns, pieces]
    cases n.role.isWrapper with
    | false => rfl
    | true =>
      rw [if_pos rfl, if_pos rfl, map_id_standInsAll parent bs]
      rfl

theorem map_id_standInsAll (parent : NodeId) : ∀ bs : List (Branch Entry),
    (standInsAll parent bs).map (·.label.1) = (piecesAll bs).filterMap Piece.kept?
  | [] => rfl
  | b :: bs => by
    rw [standInsAll, List.map_append, map_id_standIns parent b, map_id_standInsAll parent bs,
      piecesAll, List.filterMap_append]

end

end Branch

namespace Tree

def pieces (t : Tree) (id : NodeId) : List Piece :=
  Branch.piecesAll ((t.node id).children.map t.entries)

theorem pieces_eq (t : Tree) (id : NodeId) :
    t.pieces id = (t.node id).children.flatMap fun c => (t.entries c).pieces := by
  rw [pieces, Branch.piecesAll_eq, List.flatMap_map]

namespace WellFormed

variable {t : Tree}

theorem pieces_entries (h : t.WellFormed) (id : NodeId) :
    (t.entries id).pieces =
      if (t.node id).role.isWrapper then .opened ((t.node id).literal.getD "") :: t.pieces id
      else [.kept id] := by
  rw [h.entries_eq, Branch.pieces]
  rfl

/-- A branch that stands below a node is what a node further down comes to. -/
theorem exists_of_mem_standInsBelow (h : t.WellFormed) {parent a : Nat} {b : Branch Entry}
    (hb : b ∈ t.standInsBelow parent a) :
    ∃ c, b = .mk (c, t.settled (some parent) c) (t.standInsBelow c c) := by
  induction a using h.induct with
  | step a ih =>
    rw [standInsBelow, Branch.standInsAll_eq, List.flatMap_map, List.mem_flatMap] at hb
    obtain ⟨c, hc, hb⟩ := hb
    rw [h.standIns_entries] at hb
    cases hw : (t.node c).role.isWrapper with
    | true =>
      rw [hw, if_pos rfl] at hb
      exact ih c hc hb
    | false =>
      rw [hw, if_neg Bool.false_ne_true, List.mem_singleton] at hb
      exact ⟨c, hb⟩

/-- A node of a collapsed tree is what it comes to in the tree before. -/
theorem exists_entries_collapse (h : t.WellFormed)
    (hrole : (t.node root).role.isTransient = false) {d : Nat}
    (hd : t.collapse.1.Reaches root d) :
    ∃ parent, t.collapse.1.entries d = .mk (d, t.settled parent d) (t.standInsBelow d d) := by
  have hwf' := h.wellFormed_collapse hrole
  induction hd with
  | refl => exact ⟨none, by rw [h.entries_collapse hrole, h.collapsed_entries_root hrole]⟩
  | @tail d c _ hc ih =>
    obtain ⟨parent, hd⟩ := ih
    have hchildren := congrArg Branch.branches hd
    rw [hwf'.entries_eq, Branch.branches_mk, Branch.branches_mk] at hchildren
    have hmem : t.collapse.1.entries c ∈ t.standInsBelow d d := by
      rw [← hchildren]
      exact List.mem_map_of_mem hc
    obtain ⟨c', hc'⟩ := h.exists_of_mem_standInsBelow hmem
    have hsame : c = c' := by
      have hlabel := congrArg (fun b => b.label.1) hc'
      rwa [hwf'.entries_eq] at hlabel
    exact ⟨some d, hsame ▸ hc'⟩

/-- The children of a node of a collapsed tree are the nodes among its pieces, and its text is
followed by the texts among them. -/
theorem node_collapse (h : t.WellFormed) (hrole : (t.node root).role.isTransient = false) {d : Nat}
    (hd : t.collapse.1.Reaches root d) :
    (t.collapse.1.node d).children = (t.pieces d).filterMap Piece.kept? ∧
      (t.collapse.1.node d).literal.getD "" = (t.node d).literal.getD "" ++
        String.join ((t.pieces d).filterMap Piece.opened?) := by
  have hwf' := h.wellFormed_collapse hrole
  obtain ⟨parent, hd⟩ := h.exists_entries_collapse hrole hd
  have hnode : t.collapse.1.node d = t.settled parent d := by
    have hlabel := congrArg (fun b => b.label.2) hd
    rwa [hwf'.entries_eq] at hlabel
  rw [hnode]
  constructor
  · exact Branch.map_id_standInsAll d ((t.node d).children.map t.entries)
  · rw [pieces, ← Branch.getD_absorbed, ← getD_joinRecorded]
    rfl

end WellFormed

end Tree

end RankedGrammar
