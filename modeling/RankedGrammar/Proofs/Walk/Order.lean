import Mathlib.Data.List.Chain
import RankedGrammar.Proofs.Tree.WellFormed
import RankedGrammar.Walk.Basic

/-!
The order of a walk. The successor of a node, which is found from the links of the table, is the node
after it in the recursive post-order.
-/
namespace RankedGrammar.Tree

/-- The nodes of the tree, children before their parent and from left to right. -/
def postorder (t : Tree) : List NodeId := (t.branch root).postorder

namespace WellFormed

variable {t t' : Tree}

theorem postorder_branch (h : t.WellFormed) (id : Nat) :
    (t.branch id).postorder =
      ((t.node id).children.flatMap fun c => (t.branch c).postorder) ++ [id] := by
  rw [h.branch_eq, Branch.postorder_mk, List.flatMap_map]

theorem descend_eq (h : t.WellFormed) {m n id : Nat} (hm : t.size ≤ m + id)
    (hn : t.size ≤ n + id) : t.descend m id = t.descend n id := by
  induction m generalizing n id with
  | zero =>
    have hnil : (t.node id).children = [] := children_of_size_le (by omega)
    cases n with
    | zero => rfl
    | succ n => rw [descend, descend, hnil]
  | succ m ih =>
    cases n with
    | zero =>
      have hnil : (t.node id).children = [] := children_of_size_le (by omega)
      rw [descend, descend, hnil]
    | succ n =>
      rw [descend, descend]
      cases hc : (t.node id).children with
      | nil => rfl
      | cons c cs =>
        have hlt : id < c := h.lt_of_mem (hc ▸ List.mem_cons_self)
        exact ih (by omega) (by omega)

theorem firstLeaf_of_nil {id : Nat} (hid : (t.node id).children = []) : t.firstLeaf id = id := by
  unfold firstLeaf
  cases t.size with
  | zero => rfl
  | succ n => rw [descend, hid]

theorem firstLeaf_of_cons (h : t.WellFormed) {id c : Nat} {cs : List NodeId}
    (hid : (t.node id).children = c :: cs) : t.firstLeaf id = t.firstLeaf c := by
  have hsucc : t.firstLeaf id = t.descend (t.size + 1) id := h.descend_eq (by omega) (by omega)
  rw [hsucc, descend, hid]
  rfl

/-- The post-order begins where a walk does. -/
theorem head?_postorder (h : t.WellFormed) (id : Nat) :
    (t.branch id).postorder.head? = some (t.firstLeaf id) := by
  induction id using h.induct with
  | step id ih =>
    rw [h.postorder_branch]
    cases hc : (t.node id).children with
    | nil =>
      rw [firstLeaf_of_nil hc]
      rfl
    | cons c cs =>
      have hfirst := ih c (hc ▸ List.mem_cons_self)
      rw [h.firstLeaf_of_cons hc, List.flatMap_cons, List.append_assoc, List.head?_append, hfirst]
      rfl

theorem getLast?_postorder (h : t.WellFormed) (id : Nat) :
    (t.branch id).postorder.getLast? = some id := by
  rw [h.postorder_branch, List.getLast?_concat]

theorem nextSibling?_eq (h : t.WellFormed) {p c : Nat} {pre post : List NodeId}
    (hp : (t.node p).children = pre ++ c :: post) : t.nextSibling? p c = post.head? := by
  have hnodup := h.nodup p
  rw [hp] at hnodup
  have hpre : ∀ d ∈ pre, decide (d ≠ c) = true := by
    intro d hd
    have hnot := (List.nodup_cons.1 (List.nodup_middle.1 hnodup)).1
    refine decide_eq_true fun heq => hnot ?_
    exact List.mem_append_left post (heq ▸ hd)
  unfold nextSibling?
  rw [hp, List.dropWhile_append_of_pos hpre, List.dropWhile_cons_of_neg (by simp), List.tail_cons]

theorem successor?_eq (h : t.WellFormed) {p c : Nat} {pre post : List NodeId}
    (hp : (t.node p).children = pre ++ c :: post) :
    t.successor? c = some ((post.head?.map t.firstLeaf).getD p) := by
  have hc : c ∈ (t.node p).children := by simp [hp]
  rw [successor?, h.parent_eq hc]
  simp only [h.nextSibling?_eq hp]
  cases post with
  | nil => rfl
  | cons s post => rfl

/-- Every node of the post-order but the last has the next one as its successor. -/
theorem isChain_postorder (h : t.WellFormed) (id : Nat) :
    (t.branch id).postorder.IsChain fun a b => t.successor? a = some b := by
  induction id using h.induct with
  | step id ih =>
    rw [h.postorder_branch]
    -- over the children that are left, each of which leads to the next or to the parent
    have key : ∀ post pre : List NodeId, (t.node id).children = pre ++ post →
        ((post.flatMap fun c => (t.branch c).postorder) ++ [id]).IsChain
          (fun a b => t.successor? a = some b) ∧
        ((post.flatMap fun c => (t.branch c).postorder) ++ [id]).head? =
          some ((post.head?.map t.firstLeaf).getD id) := by
      intro post
      induction post with
      | nil =>
        intro pre _
        exact ⟨.singleton id, rfl⟩
      | cons c post ihpost =>
        intro pre hsplit
        have hc : c ∈ (t.node id).children := by simp [hsplit]
        obtain ⟨hchain, hhead⟩ := ihpost (pre ++ [c]) (by simp [hsplit])
        rw [List.flatMap_cons, List.append_assoc]
        constructor
        · refine List.isChain_append.2 ⟨ih c hc, hchain, ?_⟩
          intro a ha b hb
          rw [h.getLast?_postorder] at ha
          rw [hhead] at hb
          cases ha
          cases hb
          exact h.successor?_eq hsplit
        · rw [List.head?_append, h.head?_postorder]
          rfl
    exact (key (t.node id).children [] rfl).1

theorem nodup_postorder (h : t.WellFormed) : t.postorder.Nodup := by
  unfold postorder
  rw [(Branch.postorder_perm_preorder _).nodup_iff]
  exact h.nodup_preorder_branch root

theorem mem_postorder (h : t.WellFormed) {d : Nat} : d ∈ t.postorder ↔ t.Reaches root d := by
  unfold postorder
  rw [(Branch.postorder_perm_preorder _).mem_iff, h.mem_preorder_branch]

theorem length_postorder_le (h : t.WellFormed) : t.postorder.length ≤ t.size := by
  unfold postorder
  rw [(Branch.postorder_perm_preorder _).length_eq]
  exact h.length_preorder_branch_le root

theorem successor?_postorder (h : t.WellFormed) {k id : Nat} (hk : t.postorder[k]? = some id) :
    t.successor? id = t.postorder[k + 1]? := by
  cases hnext : t.postorder[k + 1]? with
  | some d =>
    obtain ⟨hlt, hd⟩ := List.getElem?_eq_some_iff.1 hnext
    obtain ⟨_, hid⟩ := List.getElem?_eq_some_iff.1 hk
    have hchain := List.isChain_iff_getElem.1 (h.isChain_postorder root) k hlt
    rw [← hid, ← hd]
    exact hchain
  | none =>
    have hlast := h.getLast?_postorder root
    have hlen := List.getElem?_eq_none_iff.1 hnext
    have hk' := (List.getElem?_eq_some_iff.1 hk).1
    have heq : t.postorder.length - 1 = k := by omega
    rw [List.getLast?_eq_getElem?] at hlast
    change t.postorder[t.postorder.length - 1]? = some root at hlast
    rw [heq, hk] at hlast
    cases hlast
    rw [successor?, h.root_parent]

end WellFormed

/-- The tables have the same links, and so the same walks. -/
structure SameLinks (t t' : Tree) : Prop where
  size : t'.size = t.size
  children : ∀ j, (t'.node j).children = (t.node j).children
  parent : ∀ j, (t'.node j).parent = (t.node j).parent

namespace SameLinks

variable {t t' : Tree}

theorem trans {t'' : Tree} (h : t.SameLinks t') (h' : t'.SameLinks t'') : t.SameLinks t'' where
  size := h'.size.trans h.size
  children j := (h'.children j).trans (h.children j)
  parent j := (h'.parent j).trans (h.parent j)

theorem modify (t : Tree) (id : NodeId) {f : Node → Node}
    (hchildren : ∀ n, (f n).children = n.children) (hparent : ∀ n, (f n).parent = n.parent) :
    t.SameLinks (t.modify id f) where
  size := t.size_modify id f
  children := apply_node_modify Node.children (hchildren _)
  parent := apply_node_modify Node.parent (hparent _)

theorem wellFormed (h : t.SameLinks t') (ht : t.WellFormed) : t'.WellFormed := by
  constructor
  · rw [h.size]
    exact ht.size_pos
  · rw [h.parent]
    exact ht.root_parent
  all_goals simp only [h.children, h.parent, h.size]
  · exact ht.lt_of_mem
  · exact ht.lt_size
  · exact ht.parent_eq
  · exact ht.nodup

theorem postorder (h : t.SameLinks t') (ht : t.WellFormed) : t'.postorder = t.postorder := by
  unfold Tree.postorder
  rw [ht.branch_congr (h.wellFormed ht) fun d _ => h.children d]

end SameLinks

end RankedGrammar.Tree
