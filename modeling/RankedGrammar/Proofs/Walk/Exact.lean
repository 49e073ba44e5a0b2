import RankedGrammar.Proofs.Match.Frame
import RankedGrammar.Proofs.Walk.Order

/-!
Where a walk stands. A walk over a tree has handed out the first nodes of its post-order, and the
marks in its table are those of these nodes; to move on hands out the next one.
-/
namespace RankedGrammar

namespace Walk

variable {t : Tree} {w : Walk}

/-- The nodes handed out, the first one first. -/
def handed (w : Walk) : List NodeId := (w.history.map (·.id)).reverse

/-- The nodes that a visitor was told of, the first one first. -/
def toldOf (w : Walk) : List NodeId := ((w.history.filter (·.told)).map (·.id)).reverse

/-- The walk stands before the nodes `ids`: in the post-order of its tree they come after those that
it has handed out. -/
structure Before (w : Walk) (ids : List NodeId) : Prop where
  wellFormed : w.tree.WellFormed
  split : w.tree.postorder = w.handed ++ ids

theorem current_eq (w : Walk) : w.current = w.handed.getLast? := by
  rw [handed, List.getLast?_reverse, List.head?_map]
  rfl

/-- After the last of some nodes of the post-order comes the first of the others. -/
theorem nextAfter_of_split (ht : w.tree.WellFormed) {done ids : List NodeId}
    (hsplit : w.tree.postorder = done ++ ids) : w.nextAfter done.getLast? = ids.head? := by
  rcases List.eq_nil_or_concat' done with rfl | ⟨done, id, rfl⟩
  · have hfirst := ht.head?_postorder Tree.root
    rw [← Tree.postorder, hsplit] at hfirst
    exact hfirst.symm
  · have hid : w.tree.postorder[done.length]? = some id := by simp [hsplit]
    have hnext : w.tree.postorder[done.length + 1]? = ids.head? := by
      rw [hsplit, List.getElem?_append_right (by simp), List.head?_eq_getElem?]
      simp
    rw [List.getLast?_concat, ← hnext]
    exact ht.successor?_postorder hid

theorem Before.peek {ids : List NodeId} (h : w.Before ids) : w.peek = ids.head? := by
  rw [Walk.peek, current_eq]
  exact nextAfter_of_split h.wellFormed h.split

def marked (n : Node) (id : NodeId) (ids : List NodeId) : Node :=
  { n with consumed := decide (id ∈ ids), consumedChildren := n.children.countP (· ∈ ids) }

/-- The walk is over the tree `t`, and has handed out the first nodes of its post-order. -/
structure Exact (t : Tree) (w : Walk) : Prop where
  handed : w.handed = t.postorder.take w.history.length
  size : w.tree.size = t.size
  node : ∀ j, w.tree.node j = marked (t.node j) j w.handed

theorem length_handed (w : Walk) : w.handed.length = w.history.length := by
  simp [handed]

/-- One more label counts once, where it is listed. -/
theorem countP_append_singleton {cs ids : List NodeId} {id : NodeId} (hcs : cs.Nodup)
    (hid : id ∉ ids) :
    cs.countP (· ∈ ids ++ [id]) = cs.countP (· ∈ ids) + if id ∈ cs then 1 else 0 := by
  induction cs with
  | nil => rfl
  | cons c cs ih =>
    obtain ⟨hc, hcs⟩ := List.nodup_cons.1 hcs
    rw [List.countP_cons, List.countP_cons, ih hcs]
    by_cases heq : c = id
    · subst heq
      simp [hid, hc]
    · have heq' : id ≠ c := fun h => heq h.symm
      simp only [List.mem_append, List.mem_cons, List.not_mem_nil, heq, or_false, heq', false_or]
      omega

theorem exact_start (hwalk : t.Unwalked) (language : String) : (start t language).Exact t where
  handed := by simp [handed, start]
  size := rfl
  node j := by
    obtain ⟨hflag, hcount⟩ := hwalk j
    have hnone : (start t language).handed = [] := rfl
    rw [marked, hnone]
    simp only [List.not_mem_nil, decide_false, List.countP_false]
    rw [← hflag, ← hcount]
    rfl

namespace Exact

theorem length_le (h : w.Exact t) : w.history.length ≤ t.postorder.length := by
  have hlen := congrArg List.length h.handed
  rw [length_handed, List.length_take] at hlen
  omega

theorem sameLinks (h : w.Exact t) : t.SameLinks w.tree where
  size := h.size
  children j := by rw [h.node]; rfl
  parent j := by rw [h.node]; rfl

theorem current (h : w.Exact t) : w.current = (t.postorder.take w.history.length).getLast? := by
  rw [← h.handed, current_eq]

theorem before (ht : t.WellFormed) (h : w.Exact t) :
    w.Before (t.postorder.drop w.history.length) where
  wellFormed := h.sameLinks.wellFormed ht
  split := by rw [h.sameLinks.postorder ht, h.handed, List.take_append_drop]

theorem peek (ht : t.WellFormed) (h : w.Exact t) :
    w.peek = t.postorder[w.history.length]? := by
  rw [(h.before ht).peek, List.head?_drop]

end Exact

theorem handed_handOut (w : Walk) (id : NodeId) (told : Bool) :
    (w.handOut id told).handed = w.handed ++ [id] := by
  simp [handOut, handed]

theorem sameLinks_handOut (w : Walk) (id : NodeId) (told : Bool) :
    w.tree.SameLinks (w.handOut id told).tree := by
  have hmark : w.tree.SameLinks (w.tree.modify id fun n => { n with consumed := true }) :=
    .modify w.tree id (fun _ => rfl) fun _ => rfl
  unfold handOut
  dsimp only
  split
  · exact hmark
  · exact hmark.trans (.modify _ _ (fun _ => rfl) fun _ => rfl)

namespace Before

variable {id : NodeId} {ids : List NodeId}

theorem start (ht : t.WellFormed) (language : String) :
    (Walk.start t language).Before t.postorder :=
  ⟨ht, rfl⟩

/-- To hand out the next node brings the walk before the others. -/
theorem handOut (h : w.Before (id :: ids)) (told : Bool) : (w.handOut id told).Before ids := by
  have hlinks := w.sameLinks_handOut id told
  refine ⟨hlinks.wellFormed h.wellFormed, ?_⟩
  rw [hlinks.postorder h.wellFormed, h.split, handed_handOut, List.append_assoc,
    List.singleton_append]

theorem advance (h : w.Before ids) (told : Bool) : (w.advance told).2.Before ids.tail := by
  rw [Walk.advance, h.peek]
  cases ids with
  | nil => exact h
  | cons id ids => exact h.handOut told

theorem length_le (h : w.Before ids) : ids.length ≤ w.tree.size := by
  have hle := h.wellFormed.length_postorder_le
  rw [h.split, List.length_append] at hle
  omega

end Before

theorem node_handOut {id : Nat} (told : Bool) (hid : id < w.tree.size)
    (hparent : ∀ p, (w.tree.node id).parent = some p → p < w.tree.size ∧ p ≠ id) (j : Nat) :
    (w.handOut id told).tree.node j = { w.tree.node j with
      consumed := (w.tree.node j).consumed || decide (j = id)
      consumedChildren := (w.tree.node j).consumedChildren +
        if (w.tree.node id).parent = some j then 1 else 0 } := by
  have hmark : ∀ j, (w.tree.modify id fun n => { n with consumed := true }).node j =
      { w.tree.node j with consumed := (w.tree.node j).consumed || decide (j = id) } := by
    intro j
    by_cases hj : id = j
    · subst hj
      rw [Tree.node_modify_self _ _ hid]
      simp
    · rw [Tree.node_modify_of_ne _ _ hj]
      have hj' : j ≠ id := fun heq => hj heq.symm
      simp [hj']
  have hpar := congrArg Node.parent (hmark id)
  unfold handOut
  simp only [hpar]
  cases hp : (w.tree.node id).parent with
  | none =>
    simp only [hmark]
    simp
  | some p =>
    obtain ⟨hpsize, -⟩ := hparent p hp
    by_cases hj : p = j
    · subst hj
      rw [Tree.node_modify_self _ _ (by rw [Tree.size_modify]; exact hpsize), hmark]
      simp
    · simp only [Option.some.injEq]
      rw [Tree.node_modify_of_ne _ _ hj, hmark]
      simp [hj]

theorem size_handOut (id : NodeId) (told : Bool) :
    (w.handOut id told).tree.size = w.tree.size :=
  (w.sameLinks_handOut id told).size

namespace Exact

theorem handOut (ht : t.WellFormed) (h : w.Exact t) {id : Nat}
    (hid : t.postorder[w.history.length]? = some id) (told : Bool) :
    (w.handOut id told).Exact t := by
  obtain ⟨hlt, hget⟩ := List.getElem?_eq_some_iff.1 hid
  have hhanded : (w.handOut id told).handed = w.handed ++ [id] := w.handed_handOut id told
  have hreach : t.Reaches Tree.root id := ht.mem_postorder.1 (List.mem_of_getElem? hid)
  have hidsize := ht.lt_size_of_reaches ht.size_pos hreach
  have hnot : id ∉ w.handed := by
    rw [h.handed]
    intro hmem
    obtain ⟨i, hi, heq⟩ := List.mem_take_iff_getElem.1 hmem
    have hinj := (ht.nodup_postorder.getElem_inj_iff).1 (heq.trans hget.symm)
    omega
  have hlisted : ∀ p, (t.node id).parent = some p ↔ id ∈ (t.node p).children := by
    intro p
    constructor
    · intro hp
      cases Relation.ReflTransGen.cases_tail hreach with
      | inl heq =>
        rw [heq, ht.root_parent] at hp
        cases hp
      | inr hlast =>
        obtain ⟨q, -, hmem⟩ := hlast
        have hq := ht.parent_eq hmem
        rw [hp] at hq
        cases hq
        exact hmem
    · exact ht.parent_eq
  constructor
  · rw [hhanded, h.handed]
    show _ = t.postorder.take (w.history.length + 1)
    rw [List.take_succ_eq_append_getElem hlt, hget]
  · rw [size_handOut, h.size]
  · intro j
    have hparent : ∀ p, (w.tree.node id).parent = some p → p < w.tree.size ∧ p ≠ id := by
      intro p hp
      rw [h.sameLinks.parent] at hp
      have hpid := ht.lt_of_mem ((hlisted p).1 hp)
      rw [h.size]
      exact ⟨Nat.lt_trans hpid hidsize, Nat.ne_of_lt hpid⟩
    have hcount : (t.node j).children.countP (· ∈ w.handed ++ [id]) =
        (t.node j).children.countP (· ∈ w.handed) +
          if (t.node id).parent = some j then 1 else 0 := by
      simp only [hlisted]
      exact countP_append_singleton (ht.nodup j) hnot
    rw [node_handOut told (h.size ▸ hidsize) hparent, h.sameLinks.parent, hhanded, h.node, marked,
      marked, hcount]
    simp

end Exact

end Walk

end RankedGrammar
