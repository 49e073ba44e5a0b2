import Mathlib.Data.List.Nodup
import Mathlib.Data.List.Perm.Subperm
import Mathlib.Logic.Relation
import RankedGrammar.Proofs.Tree.Branch
import RankedGrammar.Tree.Query

/-!
Tables whose links make a tree: children come after their parents in the table, and parents and
children name each other. The branch at a node of such a table holds each node below it once, so the
bounded traversals of the table see all of it.
-/
namespace RankedGrammar.Tree

/-- Parents and children name each other, and children come after their parents. -/
structure WellFormed (t : Tree) : Prop where
  size_pos : 0 < t.size
  root_parent : (t.node root).parent = none
  lt_of_mem : ∀ {p c : Nat}, c ∈ (t.node p).children → p < c
  lt_size : ∀ {p c : Nat}, c ∈ (t.node p).children → c < t.size
  parent_eq : ∀ {p c : Nat}, c ∈ (t.node p).children → (t.node c).parent = some p
  nodup : ∀ p, (t.node p).children.Nodup

/-- `d` is `a` or lies below it. -/
abbrev Reaches (t : Tree) : NodeId → NodeId → Prop :=
  Relation.ReflTransGen fun p c => c ∈ (t.node p).children

/-- A node with all below it, to a depth of `fuel`. -/
def unfold (t : Tree) : Nat → NodeId → Branch NodeId
  | 0, id => .mk id []
  | fuel + 1, id => .mk id ((t.node id).children.map (t.unfold fuel))

def branch (t : Tree) (id : NodeId) : Branch NodeId := t.unfold t.size id

theorem node_of_size_le {t : Tree} {id : Nat} (h : t.size ≤ id) : t.node id = default := by
  have hnone : t.nodes[id]? = none := Array.getElem?_eq_none h
  rw [node, hnone]
  rfl

theorem children_of_size_le {t : Tree} {id : Nat} (h : t.size ≤ id) :
    (t.node id).children = [] := by
  rw [node_of_size_le h]
  rfl

theorem lt_size_of_parent {t : Tree} {p c : Nat} (h : (t.node c).parent = some p) : c < t.size := by
  by_contra hge
  rw [node_of_size_le (Nat.not_lt.1 hge)] at h
  cases h

theorem modify_of_size_le {t : Tree} {id : Nat} (f : Node → Node) (h : t.size ≤ id) :
    t.modify id f = t := by
  have hsame : t.nodes.modify id f = t.nodes := by
    unfold size at h
    grind
  rw [modify, hsame]

/-- What a change leaves of its node, it leaves of every node. -/
theorem apply_node_modify {α : Type} (g : Node → α) {t : Tree} {id : Nat} {f : Node → Node}
    (hf : g (f (t.node id)) = g (t.node id)) (j : Nat) :
    g ((t.modify id f).node j) = g (t.node j) := by
  by_cases hj : id = j
  · subst hj
    by_cases hid : id < t.size
    · rw [node_modify_self t f hid, hf]
    · rw [modify_of_size_le f (Nat.not_lt.1 hid)]
  · rw [node_modify_of_ne t f hj]

namespace WellFormed

variable {t t' : Tree}

theorem parent_unique (h : t.WellFormed) {p q c : Nat} (hp : c ∈ (t.node p).children)
    (hq : c ∈ (t.node q).children) : p = q := by
  have hpq := (h.parent_eq hp).symm.trans (h.parent_eq hq)
  exact Option.some.inj hpq

theorem root_not_mem (h : t.WellFormed) (p : Nat) : root ∉ (t.node p).children := by
  intro hp
  have := h.lt_of_mem hp
  exact absurd this (Nat.not_lt_zero p)

/-- Induction from the end of the table to its beginning. -/
theorem induct_lt (_ : t.WellFormed) {P : Nat → Prop}
    (step : ∀ id, (∀ c, id < c → c < t.size → P c) → P id) (id : Nat) : P id := by
  induction hk : t.size - id using Nat.strongRecOn generalizing id with
  | _ k ih =>
    refine step id fun c hlt hsize => ih (t.size - c) ?_ c rfl
    omega

/-- Induction from the leaves to the root. -/
theorem induct (h : t.WellFormed) {P : Nat → Prop}
    (step : ∀ id, (∀ c ∈ (t.node id).children, P c) → P id) (id : Nat) : P id :=
  h.induct_lt (fun id ih => step id fun c hc => ih c (h.lt_of_mem hc) (h.lt_size hc)) id

theorem le_of_reaches (h : t.WellFormed) {a d : Nat} (hd : t.Reaches a d) : a ≤ d := by
  induction hd with
  | refl => exact Nat.le_refl a
  | tail _ hc ih => exact Nat.le_trans ih (Nat.le_of_lt (h.lt_of_mem hc))

theorem lt_size_of_reaches (h : t.WellFormed) {a d : Nat} (ha : a < t.size)
    (hd : t.Reaches a d) : d < t.size := by
  induction hd with
  | refl => exact ha
  | tail _ hc _ => exact h.lt_size hc

/-- What lies below two children of a node lies below the same child. -/
theorem sibling_eq (h : t.WellFormed) {p c c' d : Nat} (hc : c ∈ (t.node p).children)
    (hc' : c' ∈ (t.node p).children) (hd : t.Reaches c d) (hd' : t.Reaches c' d) : c = c' := by
  induction hd with
  | refl =>
    cases Relation.ReflTransGen.cases_tail hd' with
    | inl heq => exact heq
    | inr hlast =>
      obtain ⟨q, hq, hmem⟩ := hlast
      have hqp := h.parent_unique hmem hc
      have hle := h.le_of_reaches hq
      have hlt := h.lt_of_mem hc'
      omega
  | tail hq hmem ih =>
    cases Relation.ReflTransGen.cases_tail hd' with
    | inl heq =>
      subst heq
      have hqp := h.parent_unique hmem hc'
      have hle := h.le_of_reaches hq
      have hlt := h.lt_of_mem hc
      omega
    | inr hlast =>
      obtain ⟨q', hq', hmem'⟩ := hlast
      have hqq := h.parent_unique hmem hmem'
      exact ih (hqq ▸ hq')

theorem unfold_eq (h : t.WellFormed) {m n id : Nat} (hm : t.size - id ≤ m)
    (hn : t.size - id ≤ n) : t.unfold m id = t.unfold n id := by
  induction m generalizing n id with
  | zero =>
    have hnil : (t.node id).children = [] := children_of_size_le (by omega)
    cases n with
    | zero => rfl
    | succ n => rw [unfold, unfold, hnil, List.map_nil]
  | succ m ih =>
    cases n with
    | zero =>
      have hnil : (t.node id).children = [] := children_of_size_le (by omega)
      rw [unfold, unfold, hnil, List.map_nil]
    | succ n =>
      rw [unfold, unfold]
      congr 1
      refine List.map_congr_left fun c hc => ?_
      have hlt := h.lt_of_mem hc
      exact ih (by omega) (by omega)

theorem branch_eq (h : t.WellFormed) (id : Nat) :
    t.branch id = .mk id ((t.node id).children.map t.branch) := by
  have hpos := h.size_pos
  have hsucc : t.branch id = t.unfold (t.size + 1) id := h.unfold_eq (by omega) (by omega)
  rw [hsucc, unfold]
  rfl

theorem preorder_branch (h : t.WellFormed) (id : Nat) :
    (t.branch id).preorder = id :: (t.node id).children.flatMap fun c => (t.branch c).preorder := by
  rw [h.branch_eq, Branch.preorder_mk, List.flatMap_map]

/-- The branch at a node holds what lies below it. -/
theorem mem_preorder_branch (h : t.WellFormed) {a d : Nat} :
    d ∈ (t.branch a).preorder ↔ t.Reaches a d := by
  induction a using h.induct with
  | step a ih =>
    rw [h.preorder_branch, List.mem_cons, List.mem_flatMap]
    constructor
    · rintro (rfl | ⟨c, hc, hd⟩)
      · exact .refl
      · exact Relation.ReflTransGen.head hc ((ih c hc).1 hd)
    · intro hd
      cases Relation.ReflTransGen.cases_head hd with
      | inl heq => exact .inl heq.symm
      | inr hfirst =>
        obtain ⟨c, hc, hd⟩ := hfirst
        exact .inr ⟨c, hc, (ih c hc).2 hd⟩

theorem nodup_preorder_branch (h : t.WellFormed) (id : Nat) :
    (t.branch id).preorder.Nodup := by
  induction id using h.induct with
  | step id ih =>
    rw [h.preorder_branch, List.nodup_cons]
    constructor
    · intro hmem
      obtain ⟨c, hc, hid⟩ := List.mem_flatMap.1 hmem
      have hle := h.le_of_reaches (h.mem_preorder_branch.1 hid)
      have hlt := h.lt_of_mem hc
      omega
    · rw [List.nodup_flatMap]
      refine ⟨ih, (h.nodup id).imp_of_mem ?_⟩
      intro c c' hc hc' hne d hd hd'
      exact hne (h.sibling_eq hc hc' (h.mem_preorder_branch.1 hd) (h.mem_preorder_branch.1 hd'))

theorem length_preorder_branch_le (h : t.WellFormed) (id : Nat) :
    (t.branch id).preorder.length ≤ t.size := by
  by_cases hid : id < t.size
  · have hsub : (t.branch id).preorder ⊆ List.range t.size := by
      intro d hd
      exact List.mem_range.2 (h.lt_size_of_reaches hid (h.mem_preorder_branch.1 hd))
    have hle := (List.subperm_of_subset (h.nodup_preorder_branch id) hsub).length_le
    rwa [List.length_range] at hle
  · have hnil : (t.node id).children = [] := children_of_size_le (by omega)
    have hpos := h.size_pos
    rw [h.preorder_branch, hnil]
    exact hpos

/-- A traversal from a stack goes through the branches of the stack one after the other. -/
theorem preorder_eq_take (h : t.WellFormed) (fuel : Nat) (ids : List NodeId) :
    t.preorder fuel ids = (ids.flatMap fun id => (t.branch id).preorder).take fuel := by
  induction fuel generalizing ids with
  | zero => simp [preorder]
  | succ fuel ih =>
    cases ids with
    | nil => simp [preorder]
    | cons id ids =>
      rw [preorder, ih, List.flatMap_cons, h.preorder_branch, List.cons_append,
        List.take_succ_cons, List.flatMap_append]

theorem descendants_eq (h : t.WellFormed) (id : Nat) :
    t.descendants id = (t.branch id).preorder := by
  have hle := h.length_preorder_branch_le id
  rw [descendants, h.preorder_eq_take, List.flatMap_cons, List.flatMap_nil, List.append_nil]
  exact List.take_of_length_le hle

theorem mem_descendants (h : t.WellFormed) {a d : Nat} :
    d ∈ t.descendants a ↔ t.Reaches a d := by
  rw [h.descendants_eq, h.mem_preorder_branch]

theorem mem_reachable (h : t.WellFormed) {d : Nat} : d ∈ t.reachable ↔ t.Reaches root d :=
  h.mem_descendants

theorem nodup_reachable (h : t.WellFormed) : t.reachable.Nodup := by
  rw [reachable, h.descendants_eq]
  exact h.nodup_preorder_branch root

/-- Tables that agree on the children of what lies below a node have the same branch there. -/
theorem branch_congr (h : t.WellFormed) (h' : t'.WellFormed) {a : Nat}
    (hsame : ∀ d, t.Reaches a d → (t'.node d).children = (t.node d).children) :
    t'.branch a = t.branch a := by
  induction a using h.induct with
  | step a ih =>
    rw [h.branch_eq, h'.branch_eq, hsame a .refl]
    congr 1
    refine List.map_congr_left fun c hc => ih c hc fun d hd => hsame d ?_
    exact Relation.ReflTransGen.head hc hd

theorem modify (h : t.WellFormed) {id : Nat} {f : Node → Node}
    (hparent : (f (t.node id)).parent = (t.node id).parent)
    (hchildren : (f (t.node id)).children = (t.node id).children) :
    (t.modify id f).WellFormed := by
  have hsame : ∀ j, ((t.modify id f).node j).parent = (t.node j).parent ∧
      ((t.modify id f).node j).children = (t.node j).children := fun j =>
    ⟨apply_node_modify Node.parent hparent j, apply_node_modify Node.children hchildren j⟩
  constructor
  · rw [size_modify]; exact h.size_pos
  · rw [(hsame root).1]; exact h.root_parent
  · intro p c hc
    rw [(hsame p).2] at hc
    exact h.lt_of_mem hc
  · intro p c hc
    rw [(hsame p).2] at hc
    rw [size_modify]
    exact h.lt_size hc
  · intro p c hc
    rw [(hsame p).2] at hc
    rw [(hsame c).1]
    exact h.parent_eq hc
  · intro p
    rw [(hsame p).2]
    exact h.nodup p

end WellFormed

end RankedGrammar.Tree
