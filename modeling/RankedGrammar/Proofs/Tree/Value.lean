import RankedGrammar.Proofs.Tree.Kept
import RankedGrammar.Proofs.Tree.Recursion

/-!
The values of the nodes of a collapsed tree. A collapse gives a node the texts of the wrappers below
it ahead of what its children take, so the value stays the same only where that is their order.
-/
namespace RankedGrammar

def Piece.text (t : Tree) : Piece → String
  | opened text => text
  | kept id => t.value id

/-- The first piece may come before the second: no text that a node keeps is followed by text that a
wrapper passes up. -/
def Piece.Precedes (t : Tree) : Piece → Piece → Prop
  | kept id, opened text => t.value id = "" ∨ text = ""
  | _, _ => True

instance (t : Tree) : DecidableRel (Piece.Precedes t)
  | .kept id, .opened text => inferInstanceAs (Decidable (t.value id = "" ∨ text = ""))
  | .kept _, .kept _ => inferInstanceAs (Decidable True)
  | .opened _, _ => inferInstanceAs (Decidable True)

/-- The texts of the pieces in another order: first those of the wrappers, then those of the nodes
that stay. -/
def Piece.sorted (t : Tree) (ps : List Piece) : String :=
  String.join (ps.filterMap opened?) ++ String.join ((ps.filterMap kept?).map t.value)

namespace Piece

variable {t : Tree}

theorem sorted_opened (text : String) (ps : List Piece) :
    sorted t (opened text :: ps) = text ++ sorted t ps := by
  rw [sorted, List.filterMap_cons_some (show opened? (opened text) = some text from rfl),
    List.filterMap_cons_none (show kept? (opened text) = none from rfl), String.join_cons,
    String.append_assoc]
  rfl

/-- Behind a node that took text no wrapper took any. -/
theorem join_opened_eq_empty {id : NodeId} {ps : List Piece} (hid : t.value id ≠ "")
    (h : ∀ b ∈ ps, Precedes t (kept id) b) : String.join (ps.filterMap opened?) = "" := by
  induction ps with
  | nil => rfl
  | cons b ps ih =>
    have hrest := ih fun b hb => h b (List.mem_cons_of_mem _ hb)
    cases b with
    | kept other => exact hrest
    | opened text =>
      have htext : text = "" := (h _ List.mem_cons_self).resolve_left hid
      rw [List.filterMap_cons_some (show opened? _ = some _ from rfl), String.join_cons, hrest, htext]
      rfl

theorem join_eq_sorted {ps : List Piece} (h : ps.Pairwise (Precedes t)) :
    String.join (ps.map (text t)) = sorted t ps := by
  induction ps with
  | nil => rfl
  | cons a ps ih =>
    obtain ⟨ha, hps⟩ := List.pairwise_cons.1 h
    rw [List.map_cons, String.join_cons, ih hps]
    cases a with
    | opened text => exact (sorted_opened text ps).symm
    | kept id =>
      rw [sorted, sorted, List.filterMap_cons_none (show opened? (kept id) = none from rfl),
        List.filterMap_cons_some (show kept? (kept id) = some id from rfl), List.map_cons,
        String.join_cons, text]
      by_cases hid : t.value id = ""
      · rw [hid, String.empty_append, String.empty_append]
      · rw [join_opened_eq_empty hid ha, String.empty_append, String.empty_append]

end Piece

namespace Tree

/-- The texts of the wrappers below a node may go ahead of those of the nodes that stay without any
change in what they make together. -/
def InOrder (t : Tree) (id : NodeId) : Prop :=
  String.join ((t.pieces id).map (Piece.text t)) = Piece.sorted t (t.pieces id)

namespace WellFormed

variable {t : Tree}

/-- The pieces of a node hold the values of its children. -/
theorem join_pieces (h : t.WellFormed) (id : NodeId) :
    String.join ((t.pieces id).map (Piece.text t)) =
      String.join ((t.node id).children.map t.value) := by
  induction id using h.induct with
  | step id ih =>
    rw [pieces_eq, List.map_flatMap, join_flatMap]
    congr 1
    refine List.map_congr_left fun c hc => ?_
    rw [h.pieces_entries]
    cases (t.node c).role.isWrapper with
    | false => rfl
    | true =>
      rw [if_pos rfl, List.map_cons, String.join_cons, ih c hc]
      exact (h.value_eq_join c).symm

/-- A node whose children keep their values keeps its own if and only if the texts below it are in
order. -/
theorem value_collapse_eq_iff (h : t.WellFormed) (hrole : (t.node root).role.isTransient = false)
    {d : Nat} (hd : t.collapse.1.Reaches root d)
    (hchildren : ∀ c ∈ (t.collapse.1.node d).children, t.collapse.1.value c = t.value c) :
    t.collapse.1.value d = t.value d ↔ t.InOrder d := by
  have hwf' := h.wellFormed_collapse hrole
  obtain ⟨hkept, htext⟩ := h.node_collapse hrole hd
  rw [hwf'.value_eq_join, h.value_eq_join, List.map_congr_left hchildren, hkept, htext,
    String.append_assoc, ← h.join_pieces]
  exact (String.append_right_inj _).trans eq_comm

/-- A collapse keeps the value of every node that stays if and only if the texts below each of them
are in order. -/
theorem forall_value_collapse_iff (h : t.WellFormed)
    (hrole : (t.node root).role.isTransient = false) :
    (∀ d ∈ t.collapse.1.reachable, t.collapse.1.value d = t.value d) ↔
      ∀ d ∈ t.collapse.1.reachable, t.InOrder d := by
  have hwf' := h.wellFormed_collapse hrole
  constructor
  · intro hsame d hd
    have hreach := hwf'.mem_reachable.1 hd
    refine (h.value_collapse_eq_iff hrole hreach fun c hc => ?_).1 (hsame d hd)
    exact hsame c (hwf'.mem_reachable.2 (hreach.tail hc))
  · intro horder d hd
    induction d using hwf'.induct with
    | step d ih =>
      have hreach := hwf'.mem_reachable.1 hd
      refine (h.value_collapse_eq_iff hrole hreach fun c hc => ?_).2 (horder d hd)
      exact ih c hc (hwf'.mem_reachable.2 (hreach.tail hc))

end WellFormed

end Tree

end RankedGrammar
