import RankedGrammar.Proofs.Tree.Above
import RankedGrammar.Proofs.Tree.Kept

/-!
Tables that list their nodes in the order in which they were made. Siblings were made one after the
other, and while a node was at work all new nodes went below it; so the depth-first listing of the tree
ascends, before a collapse and after it.
-/
namespace RankedGrammar.Tree

/-- The nodes were made in depth-first order. -/
structure Ascending (t : Tree) : Prop where
  siblings : ∀ p, (t.node p).children.Pairwise (· < ·)
  /-- Whatever was made between a node and a child of it lies below the node. -/
  between : ∀ {p k j : Nat}, (t.node j).parent = some p → p < k → k < j →
    ∃ q : Nat, (t.node k).parent = some q ∧ p ≤ q

/-- Whatever was made after the node lies below it. -/
def Newest (t : Tree) (id : Nat) : Prop :=
  ∀ k : Nat, id < k → k < t.size → ∃ q : Nat, (t.node k).parent = some q ∧ id ≤ q

/-- The links of the tree: the listing of its nodes is complete and ascends from the root, and among
the nodes listed parents and children name each other, so that the nodes above a node are those that
it is listed below. -/
structure Linked (t : Tree) : Prop where
  head : t.reachable.head? = some root
  ascending : t.reachable.Pairwise (· < ·)
  complete : ∀ d, d ∈ t.reachable ↔ t.Reaches root d
  root_parent : (t.node root).parent = none
  mem_children_iff : ∀ p ∈ t.reachable, ∀ c ∈ t.reachable,
    c ∈ (t.node p).children ↔ (t.node c).parent = some p
  mem_above_iff : ∀ d ∈ t.reachable, ∀ a,
    a ∈ d :: t.ancestors d ↔ a ∈ t.reachable ∧ d ∈ t.descendants a

namespace Ascending

variable {t : Tree}

theorem modify (h : t.Ascending) {id : Nat} {f : Node → Node} (hid : id < t.size)
    (hparent : (f (t.node id)).parent = (t.node id).parent)
    (hchildren : (f (t.node id)).children.Pairwise (· < ·)) : (t.modify id f).Ascending := by
  have hpar := apply_node_modify Node.parent hparent
  constructor
  · intro p
    by_cases hp : id = p
    · subst hp
      rw [node_modify_self t f hid]
      exact hchildren
    · rw [node_modify_of_ne t f hp]
      exact h.siblings p
  · intro p k j hj hk hkj
    rw [hpar j] at hj
    rw [hpar k]
    exact h.between hj hk hkj

/-- A new node goes below the one at work. -/
theorem push (h : t.Ascending) {id : Nat} {n : Node} (hnewest : t.Newest id)
    (hparent : n.parent = some id) (hchildren : n.children = []) : (t.push n).Ascending := by
  have hsize := t.size_push n
  constructor
  · intro p
    rcases Nat.lt_trichotomy p t.size with hp | hp | hp
    · rw [node_push_of_lt t n hp]
      exact h.siblings p
    · subst hp
      rw [node_push_size, hchildren]
      exact .nil
    · rw [children_of_size_le (by omega)]
      exact .nil
  · intro p k j hj hk hkj
    rcases Nat.lt_trichotomy j t.size with hlt | heq | hlt
    · rw [node_push_of_lt t n hlt] at hj
      rw [node_push_of_lt t n (Nat.lt_trans hkj hlt)]
      exact h.between hj hk hkj
    · subst heq
      rw [node_push_size, hparent] at hj
      cases hj
      rw [node_push_of_lt t n hkj]
      exact hnewest k hk hkj
    · rw [node_of_size_le (by omega)] at hj
      cases hj

/-- What lies below a sibling was made before the next. -/
theorem lt_of_reaches (h : t.Ascending) (hwf : t.WellFormed) {p c c' d : Nat}
    (hc : c ∈ (t.node p).children) (hc' : c' ∈ (t.node p).children) (hlt : c < c')
    (hd : t.Reaches c d) : d < c' := by
  induction hd with
  | refl => exact hlt
  | @tail q d hq hmem ih =>
    have hpc := hwf.lt_of_mem hc
    have hcq := hwf.le_of_reaches hq
    have hparent := hwf.parent_eq hc'
    rcases Nat.lt_trichotomy d c' with hdc | hdc | hdc
    · exact hdc
    · have hpq := hwf.parent_unique hmem (hdc ▸ hc')
      omega
    · obtain ⟨q', hq', hle⟩ := h.between (hwf.parent_eq hmem) ih hdc
      rw [hparent] at hq'
      cases hq'
      omega

/-- The listing of what lies below a node ascends. -/
theorem pairwise_preorder (h : t.Ascending) (hwf : t.WellFormed) (id : Nat) :
    (t.branch id).preorder.Pairwise (· < ·) := by
  induction id using hwf.induct with
  | step id ih =>
    rw [hwf.preorder_branch, List.pairwise_cons]
    constructor
    · intro d hd
      obtain ⟨c, hc, hd⟩ := List.mem_flatMap.1 hd
      have hle := hwf.le_of_reaches (hwf.mem_preorder_branch.1 hd)
      exact Nat.lt_of_lt_of_le (hwf.lt_of_mem hc) hle
    · rw [List.pairwise_flatMap]
      refine ⟨ih, (h.siblings id).imp_of_mem ?_⟩
      intro c c' hc hc' hlt d hd d' hd'
      have hbefore := h.lt_of_reaches hwf hc hc' hlt (hwf.mem_preorder_branch.1 hd)
      exact Nat.lt_of_lt_of_le hbefore (hwf.le_of_reaches (hwf.mem_preorder_branch.1 hd'))

end Ascending

theorem sublist_flatMap {α β : Type} {xs : List α} {f g : α → List β}
    (h : ∀ x ∈ xs, (f x).Sublist (g x)) : (xs.flatMap f).Sublist (xs.flatMap g) := by
  induction xs with
  | nil => exact .slnil
  | cons x xs ih =>
    rw [List.flatMap_cons, List.flatMap_cons]
    exact (h x List.mem_cons_self).append (ih fun y hy => h y (List.mem_cons_of_mem x hy))

namespace WellFormed

variable {t : Tree}

/-- A table of sound links whose listing ascends. -/
theorem linked (h : t.WellFormed) (hascending : (t.branch root).preorder.Pairwise (· < ·)) :
    t.Linked where
  head := by
    rw [reachable, h.descendants_eq, h.preorder_branch]
    rfl
  ascending := by
    rw [reachable, h.descendants_eq]
    exact hascending
  complete d := h.mem_reachable
  root_parent := h.root_parent
  mem_children_iff := by
    intro p _ c hc
    refine ⟨h.parent_eq, fun hparent => ?_⟩
    cases Relation.ReflTransGen.cases_tail (h.mem_reachable.1 hc) with
    | inl hroot =>
      rw [hroot, h.root_parent] at hparent
      cases hparent
    | inr hlast =>
      obtain ⟨q, -, hmem⟩ := hlast
      rw [h.parent_eq hmem] at hparent
      cases hparent
      exact hmem
  mem_above_iff := by
    intro d hd a
    have hreach := h.mem_reachable.1 hd
    rw [h.mem_reachable, h.mem_descendants]
    exact h.mem_cons_ancestors hreach

/-- What the nodes that stay below a node list is listed below the node, in the same order, if the
same is true of each of them. -/
theorem sublist_below (h : t.WellFormed) {t' : Tree} (a : Nat)
    (hkept : ∀ c ∈ (t.pieces a).filterMap Piece.kept?,
      (t'.branch c).preorder.Sublist (t.branch c).preorder) :
    (((t.pieces a).filterMap Piece.kept?).flatMap fun c => (t'.branch c).preorder).Sublist
      ((t.node a).children.flatMap fun c => (t.branch c).preorder) := by
  induction a using h.induct with
  | step a ih =>
    rw [pieces_eq, List.filterMap_flatMap] at hkept ⊢
    rw [List.flatMap_assoc]
    have hchild : ∀ c ∈ (t.node a).children,
        (((t.entries c).pieces.filterMap Piece.kept?).flatMap
          fun d => (t'.branch d).preorder).Sublist (t.branch c).preorder := by
      intro c hc
      have hbelow : ∀ d ∈ (t.entries c).pieces.filterMap Piece.kept?,
          (t'.branch d).preorder.Sublist (t.branch d).preorder := by
        intro d hd
        exact hkept d (List.mem_flatMap.2 ⟨c, hc, hd⟩)
      rw [h.pieces_entries] at hbelow ⊢
      cases hw : (t.node c).role.isWrapper with
      | true =>
        rw [hw, if_pos rfl] at hbelow
        rw [if_pos rfl, h.preorder_branch]
        exact (ih c hc hbelow).cons c
      | false =>
        rw [hw, if_neg Bool.false_ne_true] at hbelow
        rw [if_neg Bool.false_ne_true]
        show ([c].flatMap fun d => (t'.branch d).preorder).Sublist _
        rw [List.flatMap_singleton]
        exact hbelow c (List.mem_singleton.2 rfl)
    exact sublist_flatMap hchild

/-- A collapse takes nodes out of the listing and changes no order. -/
theorem sublist_collapse (h : t.WellFormed) (hrole : (t.node root).role.isTransient = false)
    {d : Nat} (hd : t.collapse.1.Reaches root d) :
    (t.collapse.1.branch d).preorder.Sublist (t.branch d).preorder := by
  have hwf' := h.wellFormed_collapse hrole
  induction d using hwf'.induct with
  | step d ih =>
    have hchildren := (h.node_collapse hrole hd).1
    rw [hwf'.preorder_branch, h.preorder_branch, hchildren]
    refine (h.sublist_below d fun c hc => ?_).cons_cons d
    have hmem : c ∈ (t.collapse.1.node d).children := hchildren ▸ hc
    exact ih c hmem (hd.tail hmem)

end WellFormed

end RankedGrammar.Tree
