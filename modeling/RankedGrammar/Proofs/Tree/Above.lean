import RankedGrammar.Proofs.Tree.WellFormed

/-!
The nodes above a node. The way up is also stated without a bound, as a relation that holds only of
ways that end. In a tree it meets the nodes that the node lies below and no others, each before those
that it lies below itself, so the first of a name on the way is the nearest.
-/
namespace RankedGrammar.Tree

/-- The way up from a node meets the given nodes and ends. -/
inductive Climbs (t : Tree) : NodeId → List NodeId → Prop where
  | top {id : NodeId} (hnone : (t.node id).parent = none) : Climbs t id []
  | up {id p : NodeId} {above : List NodeId} (hparent : (t.node id).parent = some p)
      (rest : Climbs t p above) : Climbs t id (p :: above)

/-- `a` is of the name, and `id` lies below it. -/
def Above (t : Tree) (name : String) (id a : NodeId) : Prop :=
  (t.node a).name = name ∧ a ≠ id ∧ id ∈ t.descendants a

theorem Climbs.unique {t : Tree} {id : NodeId} {above above' : List NodeId}
    (h : t.Climbs id above) (h' : t.Climbs id above') : above = above' := by
  induction h generalizing above' with
  | top hnone =>
    cases h' with
    | top _ => rfl
    | up hparent _ =>
      rw [hnone] at hparent
      cases hparent
  | up hparent _ ih =>
    cases h' with
    | top hnone =>
      rw [hparent] at hnone
      cases hnone
    | up hparent' rest' =>
      rw [hparent] at hparent'
      cases hparent'
      rw [ih rest']

namespace WellFormed

variable {t : Tree} {id p c a : Nat} {name : String}

theorem climbs_parents (h : t.WellFormed) {fuel : Nat} (hid : t.Reaches root id)
    (hfuel : id ≤ fuel) : t.Climbs id (t.parents fuel id) := by
  induction hid generalizing fuel with
  | refl =>
    cases fuel with
    | zero => exact .top h.root_parent
    | succ fuel =>
      rw [parents, h.root_parent]
      exact .top h.root_parent
  | tail _ hc ih =>
    have hlt := h.lt_of_mem hc
    cases fuel with
    | zero => omega
    | succ fuel =>
      rw [parents, h.parent_eq hc]
      exact .up (h.parent_eq hc) (ih (by omega))

/-- The way up from a node of the tree ends. -/
theorem climbs_ancestors (h : t.WellFormed) (hid : t.Reaches root id) :
    t.Climbs id (t.ancestors id) :=
  h.climbs_parents hid (Nat.le_of_lt (h.lt_size_of_reaches h.size_pos hid))

theorem ancestors_root (h : t.WellFormed) : t.ancestors root = [] :=
  (h.climbs_ancestors .refl).unique (.top h.root_parent)

theorem ancestors_child (h : t.WellFormed) (hp : t.Reaches root p)
    (hc : c ∈ (t.node p).children) : t.ancestors c = p :: t.ancestors p :=
  (h.climbs_ancestors (hp.tail hc)).unique (.up (h.parent_eq hc) (h.climbs_ancestors hp))

/-- A node lies below a child if it is the child or lies below its parent. -/
theorem reaches_child_iff (h : t.WellFormed) (hc : c ∈ (t.node p).children) :
    t.Reaches a c ↔ a = c ∨ t.Reaches a p := by
  constructor
  · intro ha
    cases Relation.ReflTransGen.cases_tail ha with
    | inl heq => exact .inl heq.symm
    | inr hlast =>
      obtain ⟨q, hq, hmem⟩ := hlast
      exact .inr (h.parent_unique hmem hc ▸ hq)
  · rintro (rfl | ha)
    · exact .refl
    · exact ha.tail hc

/-- The nodes met on the way up are those that the node lies below. -/
theorem mem_ancestors (h : t.WellFormed) (hid : t.Reaches root id) :
    a ∈ t.ancestors id ↔ a ≠ id ∧ t.Reaches a id := by
  induction hid with
  | refl =>
    rw [h.ancestors_root]
    constructor
    · intro hmem
      cases hmem
    · intro ⟨hne, ha⟩
      exact absurd (Nat.le_zero.1 (h.le_of_reaches ha)) hne
  | @tail p c hp hc ih =>
    have hlt := h.lt_of_mem hc
    rw [h.ancestors_child hp hc, List.mem_cons, ih, h.reaches_child_iff hc]
    constructor
    · rintro (rfl | ⟨-, ha⟩)
      · exact ⟨Nat.ne_of_lt hlt, .inr .refl⟩
      · exact ⟨Nat.ne_of_lt (Nat.lt_of_le_of_lt (h.le_of_reaches ha) hlt), .inr ha⟩
    · intro ⟨hne, ha⟩
      have hap : t.Reaches a p := ha.resolve_left hne
      by_cases heq : a = p
      · exact .inl heq
      · exact .inr ⟨heq, hap⟩

theorem reaches_root (h : t.WellFormed) (hid : t.Reaches root id) (ha : t.Reaches a id) :
    t.Reaches root a := by
  induction hid with
  | refl => exact Nat.le_zero.1 (h.le_of_reaches ha) ▸ .refl
  | tail hp hc ih =>
    rcases (h.reaches_child_iff hc).1 ha with rfl | ha
    · exact hp.tail hc
    · exact ih ha

/-- A node and those above it are the nodes of the tree that it is or lies below. -/
theorem mem_cons_ancestors (h : t.WellFormed) (hid : t.Reaches root id) :
    a ∈ id :: t.ancestors id ↔ t.Reaches root a ∧ t.Reaches a id := by
  rw [List.mem_cons, h.mem_ancestors hid]
  constructor
  · rintro (rfl | ⟨-, ha⟩)
    · exact ⟨hid, .refl⟩
    · exact ⟨h.reaches_root hid ha, ha⟩
  · rintro ⟨-, ha⟩
    by_cases heq : a = id
    · exact .inl heq
    · exact .inr ⟨heq, ha⟩

/-- Each node on the way up lies below those after it. -/
theorem pairwise_ancestors (h : t.WellFormed) (hid : t.Reaches root id) :
    (t.ancestors id).Pairwise fun a b => t.Reaches b a := by
  induction hid with
  | refl =>
    rw [h.ancestors_root]
    exact .nil
  | tail hp hc ih =>
    rw [h.ancestors_child hp hc, List.pairwise_cons]
    exact ⟨fun b hb => ((h.mem_ancestors hp).1 hb).2, ih⟩

theorem above_iff (h : t.WellFormed) (hid : t.Reaches root id) :
    t.Above name id a ↔ a ∈ t.ancestors id ∧ (t.node a).name = name := by
  unfold Above
  rw [h.mem_descendants, h.mem_ancestors hid, and_comm]

/-- The node of a name above a node is its parent, or else that above its parent. -/
theorem findAbove?_eq (h : t.WellFormed) (hid : t.Reaches root id) (name : String) :
    t.findAbove? id name = (t.node id).parent.bind fun p =>
      if (t.node p).name = name then some p else t.findAbove? p name := by
  cases Relation.ReflTransGen.cases_tail hid with
  | inl hroot =>
    subst hroot
    rw [findAbove?, h.ancestors_root, h.root_parent]
    rfl
  | inr hlast =>
    obtain ⟨p, hp, hc⟩ := hlast
    rw [findAbove?, h.ancestors_child hp hc, h.parent_eq hc, Option.bind_some]
    by_cases hname : (t.node p).name = name
    · rw [if_pos hname, List.find?_cons_of_pos (by simpa using hname)]
    · rw [if_neg hname, List.find?_cons_of_neg (by simpa using hname)]
      rfl

theorem findAbove?_eq_none_iff (h : t.WellFormed) (hid : t.Reaches root id) :
    t.findAbove? id name = none ↔ ∀ a, ¬ t.Above name id a := by
  rw [findAbove?, List.find?_eq_none]
  refine forall_congr' fun a => ?_
  rw [h.above_iff hid, not_and, decide_eq_true_iff]

/-- The node that is found is the nearest: it lies below all others of the name that the node lies
below. -/
theorem findAbove?_eq_some_iff (h : t.WellFormed) (hid : t.Reaches root id) :
    t.findAbove? id name = some a ↔
      t.Above name id a ∧ ∀ b, t.Above name id b → a ∈ t.descendants b := by
  have hnearest : ∀ {a}, t.findAbove? id name = some a →
      t.Above name id a ∧ ∀ b, t.Above name id b → a ∈ t.descendants b := by
    intro a hfound
    obtain ⟨hname, before, after, hsplit, hbefore⟩ := List.find?_eq_some_iff_append.1 hfound
    have hmem : a ∈ t.ancestors id := by simp [hsplit]
    refine ⟨(h.above_iff hid).2 ⟨hmem, of_decide_eq_true hname⟩, fun b hb => ?_⟩
    obtain ⟨hb, hbname⟩ := (h.above_iff hid).1 hb
    have hpairs := h.pairwise_ancestors hid
    rw [hsplit] at hb hpairs
    rw [h.mem_descendants]
    rcases List.mem_append.1 hb with hb | hb
    · have hnot := hbefore b hb
      simp [hbname] at hnot
    · rcases List.mem_cons.1 hb with rfl | hb
      · exact .refl
      · exact (List.pairwise_cons.1 (List.pairwise_append.1 hpairs).2.1).1 b hb
  refine ⟨hnearest, fun ⟨ha, hleast⟩ => ?_⟩
  cases hfound : t.findAbove? id name with
  | none => exact absurd ha ((h.findAbove?_eq_none_iff hid).1 hfound a)
  | some b =>
    obtain ⟨hb, hbleast⟩ := hnearest hfound
    have hab := h.le_of_reaches (h.mem_descendants.1 (hbleast a ha))
    have hba := h.le_of_reaches (h.mem_descendants.1 (hleast b hb))
    rw [Nat.le_antisymm hba hab]

end WellFormed

end RankedGrammar.Tree
