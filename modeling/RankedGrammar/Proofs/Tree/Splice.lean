import RankedGrammar.Proofs.Tree.Collapsed

/-!
The two changes that a collapse makes to a table, opening a wrapper and turning a literal into a
terminal. Neither changes what the tree collapses to: the collapse of the changed table is that of
the table before.
-/
namespace RankedGrammar.Tree

variable {t : Tree}

theorem size_adopt (t : Tree) (p : NodeId) (ids : List NodeId) : (t.adopt p ids).size = t.size := by
  induction ids generalizing t with
  | nil => rfl
  | cons id ids ih =>
    rw [adopt, List.foldl_cons, ← adopt, ih, size_modify]

theorem node_adopt (t : Tree) (p : NodeId) (ids : List NodeId) (hids : ∀ c ∈ ids, c < t.size)
    (j : NodeId) :
    (t.adopt p ids).node j =
      if j ∈ ids then { t.node j with parent := some p } else t.node j := by
  induction ids generalizing t with
  | nil => simp [adopt]
  | cons id ids ih =>
    have hid := hids id List.mem_cons_self
    rw [adopt, List.foldl_cons, ← adopt, ih]
    · by_cases hj : id = j
      · subst hj
        rw [node_modify_self t _ hid]
        simp
      · rw [node_modify_of_ne t _ hj]
        have hj' : j ≠ id := fun heq => hj heq.symm
        simp [hj']
    · intro c hc
      rw [size_modify]
      exact hids c (List.mem_cons_of_mem id hc)

/-- The wrapper `w` stands among the children of `id` between `pre` and `post`. -/
structure WrapperAt (t : Tree) (id : Nat) (pre : List NodeId) (w : Nat) (post : List NodeId) :
    Prop where
  wellFormed : t.WellFormed
  children : (t.node id).children = pre ++ w :: post
  wrapper : (t.node w).role.isWrapper = true

namespace WrapperAt

variable {id w : Nat} {pre post : List NodeId}

theorem mem (h : t.WrapperAt id pre w post) : w ∈ (t.node id).children := by
  rw [h.children]
  exact List.mem_append_right pre List.mem_cons_self

theorem lt (h : t.WrapperAt id pre w post) : id < w := h.wellFormed.lt_of_mem h.mem

theorem w_lt_size (h : t.WrapperAt id pre w post) : w < t.size := h.wellFormed.lt_size h.mem

theorem mem_outer (h : t.WrapperAt id pre w post) {c : NodeId} (hc : c ∈ pre ++ post) :
    c ∈ (t.node id).children ∧ c ≠ w := by
  have hnd := h.wellFormed.nodup id
  rw [h.children] at hnd ⊢
  have hw := (List.nodup_middle.1 hnd).notMem
  refine ⟨?_, fun heq => hw (heq ▸ hc)⟩
  cases List.mem_append.1 hc with
  | inl hc => exact List.mem_append_left _ hc
  | inr hc => exact List.mem_append_right pre (List.mem_cons_of_mem w hc)

theorem size_splice (_ : t.WrapperAt id pre w post) : (t.splice id pre.length w).size = t.size := by
  rw [splice, size_modify, size_modify, size_adopt]

theorem wrapper_not_mem (h : t.WrapperAt id pre w post) {p : Nat} (hp : p ≠ id) :
    w ∉ (t.node p).children :=
  fun hw => hp (h.wellFormed.parent_unique hw h.mem)

theorem node_splice_self (h : t.WrapperAt id pre w post) :
    (t.splice id pre.length w).node id = { t.node id with
      children := pre ++ (t.node w).children ++ post
      literal := joinRecorded (t.node id).literal (t.node w).literal } := by
  have hlt := h.lt
  have hwsize := h.w_lt_size
  have hadopt := t.node_adopt id (t.node w).children fun c hc => h.wellFormed.lt_size hc
  have hid : id ∉ (t.node w).children := by
    intro hc
    have := h.wellFormed.lt_of_mem hc
    omega
  have hsize : id < ((t.adopt id (t.node w).children).modify w Node.vacated).size := by
    rw [size_modify, size_adopt]
    exact Nat.lt_trans hlt hwsize
  unfold splice
  rw [node_modify_self _ _ hsize, node_modify_of_ne _ _ (Nat.ne_of_gt hlt), hadopt, if_neg hid,
    h.children]
  simp

theorem node_splice_wrapper (h : t.WrapperAt id pre w post) :
    (t.splice id pre.length w).node w = (t.node w).vacated := by
  have hadopt := t.node_adopt id (t.node w).children fun c hc => h.wellFormed.lt_size hc
  have hw : w ∉ (t.node w).children := by
    intro hc
    have := h.wellFormed.lt_of_mem hc
    omega
  have hsize : w < (t.adopt id (t.node w).children).size := by
    rw [size_adopt]
    exact h.w_lt_size
  unfold splice
  rw [node_modify_of_ne _ _ (Nat.ne_of_lt h.lt), node_modify_self _ _ hsize, hadopt, if_neg hw]

theorem node_splice_of_ne (h : t.WrapperAt id pre w post) {j : Nat} (hj : j ≠ id) (hjw : j ≠ w) :
    (t.splice id pre.length w).node j =
      if j ∈ (t.node w).children then { t.node j with parent := some id } else t.node j := by
  unfold splice
  rw [node_modify_of_ne _ _ hj.symm, node_modify_of_ne _ _ hjw.symm]
  exact t.node_adopt id _ (fun c hc => h.wellFormed.lt_size hc) j

theorem children_splice_of_ne (h : t.WrapperAt id pre w post) {j : Nat} (hj : j ≠ id)
    (hjw : j ≠ w) : ((t.splice id pre.length w).node j).children = (t.node j).children := by
  rw [h.node_splice_of_ne hj hjw]
  split <;> rfl

theorem role_splice (h : t.WrapperAt id pre w post) (j : Nat) :
    ((t.splice id pre.length w).node j).role = (t.node j).role := by
  by_cases hj : j = id
  · rw [hj, h.node_splice_self]
  by_cases hjw : j = w
  · rw [hjw, h.node_splice_wrapper]
    rfl
  rw [h.node_splice_of_ne hj hjw]
  split <;> rfl

/-- An opened wrapper is out of the tree, and its children are those of its parent. -/
theorem mem_children_splice (h : t.WrapperAt id pre w post) {p c : Nat} :
    c ∈ ((t.splice id pre.length w).node p).children ↔
      (p ≠ w ∧ c ≠ w ∧ c ∈ (t.node p).children) ∨ (p = id ∧ c ∈ (t.node w).children) := by
  have hlt := h.lt
  by_cases hp : p = id
  · subst hp
    have hpw : p ≠ w := Nat.ne_of_lt hlt
    rw [h.node_splice_self]
    show c ∈ pre ++ (t.node w).children ++ post ↔ _
    constructor
    · intro hc
      by_cases hcw : c ∈ (t.node w).children
      · exact .inr ⟨rfl, hcw⟩
      · have houter : c ∈ pre ++ post := by simpa [hcw] using hc
        obtain ⟨hmem, hne⟩ := h.mem_outer houter
        exact .inl ⟨hpw, hne, hmem⟩
    · rintro (⟨-, hcw, hc⟩ | ⟨-, hc⟩)
      · rw [h.children] at hc
        have houter : c ∈ pre ∨ c ∈ post := by simpa [hcw] using hc
        cases houter with
        | inl hc => simp [hc]
        | inr hc => simp [hc]
      · simp [hc]
  by_cases hpw : p = w
  · subst hpw
    rw [h.node_splice_wrapper]
    simp [Node.vacated, hp]
  · rw [h.children_splice_of_ne hp hpw]
    have hcw : c ∈ (t.node p).children → c ≠ w := by
      rintro hc rfl
      exact h.wrapper_not_mem hp hc
    constructor
    · intro hc
      exact .inl ⟨hpw, hcw hc, hc⟩
    · rintro (⟨-, -, hc⟩ | ⟨heq, -⟩)
      · exact hc
      · exact absurd heq hp

theorem parent_splice (h : t.WrapperAt id pre w post) {p c : Nat}
    (hc : c ∈ ((t.splice id pre.length w).node p).children) :
    ((t.splice id pre.length w).node c).parent = some p := by
  have hwf := h.wellFormed
  have hlt := h.lt
  cases h.mem_children_splice.1 hc with
  | inl hold =>
    obtain ⟨hpw, hcw, hc⟩ := hold
    have hpar := hwf.parent_eq hc
    have hout : c ∉ (t.node w).children := fun hcw => hpw (hwf.parent_unique hc hcw)
    by_cases hcid : c = id
    · rw [hcid, h.node_splice_self, ← hpar, hcid]
    · rw [h.node_splice_of_ne hcid hcw, if_neg hout, hpar]
  | inr hnew =>
    obtain ⟨rfl, hmem⟩ := hnew
    have hcw := hwf.lt_of_mem hmem
    have hne : c ≠ p := by omega
    have hne' : c ≠ w := by omega
    rw [h.node_splice_of_ne hne hne', if_pos hmem]

theorem nodup_splice (h : t.WrapperAt id pre w post) (p : Nat) :
    ((t.splice id pre.length w).node p).children.Nodup := by
  have hwf := h.wellFormed
  have hlt := h.lt
  by_cases hp : p = id
  · have hnd := hwf.nodup id
    rw [h.children] at hnd
    have houter := (List.nodup_cons.1 (List.nodup_middle.1 hnd)).2
    have hdisjoint : ∀ c ∈ (t.node w).children, c ∉ pre ++ post := by
      intro c hc hco
      have heq := hwf.parent_unique hc (h.mem_outer hco).1
      omega
    rw [hp, h.node_splice_self]
    show (pre ++ (t.node w).children ++ post).Nodup
    rw [List.append_assoc, (List.perm_append_comm_assoc pre _ post).nodup_iff]
    refine List.nodup_append.2 ⟨hwf.nodup w, houter, ?_⟩
    intro a ha b hb heq
    exact hdisjoint a ha (heq ▸ hb)
  by_cases hpw : p = w
  · rw [hpw, h.node_splice_wrapper]
    exact List.nodup_nil
  · rw [h.children_splice_of_ne hp hpw]
    exact hwf.nodup p

theorem wellFormed_splice (h : t.WrapperAt id pre w post) :
    (t.splice id pre.length w).WellFormed := by
  have hwf := h.wellFormed
  have hlt := h.lt
  constructor
  · rw [h.size_splice]
    exact hwf.size_pos
  · have hrw : root ≠ w := fun heq => hwf.root_not_mem id (heq ▸ h.mem)
    by_cases hr : root = id
    · rw [hr, h.node_splice_self, ← hwf.root_parent, hr]
    · rw [h.node_splice_of_ne hr hrw, if_neg (hwf.root_not_mem w)]
      exact hwf.root_parent
  · intro p c hc
    cases h.mem_children_splice.1 hc with
    | inl hold => exact hwf.lt_of_mem hold.2.2
    | inr hnew =>
      have hcw := hwf.lt_of_mem hnew.2
      omega
  · intro p c hc
    rw [h.size_splice]
    cases h.mem_children_splice.1 hc with
    | inl hold => exact hwf.lt_size hold.2.2
    | inr hnew => exact hwf.lt_size hnew.2
  · intro p c hc
    exact h.parent_splice hc
  · exact h.nodup_splice

/-- All that is taken out of the tree is the wrapper. -/
theorem reaches_splice (h : t.WrapperAt id pre w post) (hid : t.Reaches root id) {d : Nat} :
    (t.splice id pre.length w).Reaches root d ↔ t.Reaches root d ∧ d ≠ w := by
  have hlt := h.lt
  have hidw : id ≠ w := Nat.ne_of_lt hlt
  constructor
  · intro hd
    induction hd with
    | refl => exact ⟨.refl, fun heq => h.wellFormed.root_not_mem id (heq ▸ h.mem)⟩
    | tail _ hc ih =>
      cases h.mem_children_splice.1 hc with
      | inl hold => exact ⟨ih.1.tail hold.2.2, hold.2.1⟩
      | inr hnew =>
        obtain ⟨rfl, hmem⟩ := hnew
        have hcw := h.wellFormed.lt_of_mem hmem
        exact ⟨(ih.1.tail h.mem).tail hmem, Nat.ne_of_gt hcw⟩
  · rintro ⟨hd, hne⟩
    -- on the way to `d` the wrapper may be passed once, which is then left out
    have key : ∀ {d : Nat}, t.Reaches root d →
        (d ≠ w → (t.splice id pre.length w).Reaches root d) ∧
          (d = w → (t.splice id pre.length w).Reaches root id) := by
      intro d hd
      induction hd with
      | refl => exact ⟨fun _ => .refl, fun heq => absurd (heq ▸ h.mem) (h.wellFormed.root_not_mem id)⟩
      | @tail q c _ hc ih =>
        constructor
        · intro hcw
          by_cases hq : q = w
          · exact (ih.2 hq).tail (h.mem_children_splice.2 (.inr ⟨rfl, hq ▸ hc⟩))
          · exact (ih.1 hq).tail (h.mem_children_splice.2 (.inl ⟨hq, hcw, hc⟩))
        · intro hcw
          subst hcw
          have hq := h.wellFormed.parent_unique hc h.mem
          subst hq
          exact ih.1 hidw
    exact (key hd).1 hne

theorem outcome_splice (h : t.WrapperAt id pre w post) (j : Nat) :
    ((t.splice id pre.length w).node j).asTerminal.vacated = (t.node j).asTerminal.vacated := by
  have hvacated : ((t.splice id pre.length w).node j).vacated = (t.node j).vacated := by
    by_cases hj : j = id
    · rw [hj, h.node_splice_self]
      rfl
    by_cases hjw : j = w
    · rw [hjw, h.node_splice_wrapper]
      rfl
    rw [h.node_splice_of_ne hj hjw]
    split <;> rfl
  rw [← Node.asTerminal_vacated, hvacated, Node.asTerminal_vacated]

theorem standInsBelow_eq (h : t.WrapperAt id pre w post) (parent : NodeId) :
    t.standInsBelow parent id =
      Branch.standInsAll parent (pre.map t.entries) ++ t.standInsBelow parent w ++
        Branch.standInsAll parent (post.map t.entries) := by
  have hw := h.wellFormed.standIns_entries parent w
  rw [if_pos h.wrapper] at hw
  rw [standInsBelow, h.children]
  simp only [Branch.standInsAll_eq, List.map_append, List.map_cons, List.flatMap_append,
    List.flatMap_cons, hw, List.append_assoc]

theorem gathered_eq (h : t.WrapperAt id pre w post)
    (hpre : ∀ c ∈ pre, (t.node c).role.isWrapper = false) :
    t.gathered id = joinRecorded (t.node id).literal
      (joinRecorded (t.gathered w) (Branch.absorbed (post.map t.entries))) := by
  have hw := h.wellFormed.passedUp_entries w
  rw [if_pos h.wrapper] at hw
  rw [gathered, h.children, List.map_append, Branch.absorbed_append,
    h.wellFormed.absorbed_eq_none hpre, List.map_cons, Branch.absorbed, hw]
  rfl

/-- Opening a wrapper changes nothing in what the other nodes come to. The children before it are no
wrappers, so that its text stays in its place among that of the others. -/
theorem agree_splice (h : t.WrapperAt id pre w post)
    (hpre : ∀ c ∈ pre, (t.node c).role.isWrapper = false) {a : Nat} (ha : a ≠ w) :
    t.Agree (t.splice id pre.length w) a := by
  have hwf := h.wellFormed
  have hwf' := h.wellFormed_splice
  induction a using hwf.induct_lt with
  | step a ih =>
    have hbelow : ∀ {c p : Nat}, a ≤ p → c ∈ (t.node p).children → c ≠ w →
        t.Agree (t.splice id pre.length w) c :=
      fun hle hc hne => ih _ (Nat.lt_of_le_of_lt hle (hwf.lt_of_mem hc)) (hwf.lt_size hc) hne
    by_cases haid : a = id
    · subst haid
      have houter : ∀ c ∈ pre ++ post, t.Agree (t.splice a pre.length w) c := fun c hc =>
        hbelow (Nat.le_refl a) (h.mem_outer hc).1 (h.mem_outer hc).2
      have hinner : ∀ c ∈ (t.node w).children, t.Agree (t.splice a pre.length w) c := fun c hc =>
        hbelow (Nat.le_of_lt h.lt) hc (Nat.ne_of_gt (hwf.lt_of_mem hc))
      have hchildren : ((t.splice a pre.length w).node a).children =
          pre ++ (t.node w).children ++ post := by
        rw [h.node_splice_self]
      have hliteral : ((t.splice a pre.length w).node a).literal =
          joinRecorded (t.node a).literal (t.node w).literal := by
        rw [h.node_splice_self]
      constructor
      · exact h.outcome_splice a
      · intro parent
        have hstand : ∀ (ids : List NodeId),
            (∀ c ∈ ids, t.Agree (t.splice a pre.length w) c) →
              Branch.standInsAll parent (ids.map (t.splice a pre.length w).entries) =
                Branch.standInsAll parent (ids.map t.entries) := fun ids hids =>
          Branch.standInsAll_congr fun c hc => (hids c hc).standIns hwf hwf' parent
        rw [h.standInsBelow_eq, standInsBelow, hchildren]
        rw [← hstand pre fun c hc => houter c (List.mem_append_left post hc),
          ← hstand post fun c hc => houter c (List.mem_append_right pre hc),
          standInsBelow, ← hstand _ hinner]
        simp only [Branch.standInsAll_eq, List.map_append, List.flatMap_append]
      · have habsorbed : ∀ (ids : List NodeId),
            (∀ c ∈ ids, t.Agree (t.splice a pre.length w) c) →
              Branch.absorbed (ids.map (t.splice a pre.length w).entries) =
                Branch.absorbed (ids.map t.entries) := fun ids hids =>
          Branch.absorbed_congr fun c hc => (hids c hc).passedUp hwf hwf'
        rw [h.gathered_eq hpre, gathered, hchildren, hliteral, List.map_append, List.map_append,
          Branch.absorbed_append, Branch.absorbed_append,
          habsorbed pre fun c hc => houter c (List.mem_append_left post hc),
          habsorbed post fun c hc => houter c (List.mem_append_right pre hc),
          habsorbed _ hinner, hwf.absorbed_eq_none hpre, gathered]
        simp only [joinRecorded_assoc]
        rfl
    · have hchildren := h.children_splice_of_ne haid ha
      refine Agree.of_children hwf hwf' (h.outcome_splice a) ?_ hchildren ?_
      · rw [h.node_splice_of_ne haid ha]
        split <;> rfl
      · intro c hc
        refine hbelow (Nat.le_refl a) hc ?_
        rintro rfl
        exact h.wrapper_not_mem haid hc

end WrapperAt

end RankedGrammar.Tree
