import RankedGrammar.Proofs.Tree.Splice

/-!
A collapse comes to an end and gives the tree of `Branch.collapsed`. The two loops are also stated
without a bound, as relations that hold only of loops that end; the bounded loops of the collapse
satisfy them. What every change of the table keeps is `Collapsing`.
-/
namespace RankedGrammar.Tree

/-- The number of literals in the tree. -/
def literalCount (t : Tree) : Nat :=
  t.reachable.countP fun n => (t.node n).role.isTransient && (t.node n).role.isLiteral

/-- The scan of the children of `id` from `pos` on ends with the given table and counts. -/
inductive Scans (id : Nat) : Nat → Tree → CollapseCounts → Tree → CollapseCounts → Prop where
  | done {pos : Nat} {t : Tree} {counts : CollapseCounts}
      (hnone : (t.node id).children[pos]? = none) : Scans id pos t counts t counts
  | pass {pos c : Nat} {t t' : Tree} {counts counts' : CollapseCounts}
      (hc : (t.node id).children[pos]? = some c) (hrole : (t.node c).role.isTransient = false)
      (rest : Scans id (pos + 1) t counts t' counts') : Scans id pos t counts t' counts'
  | rename {pos c : Nat} {text : String} {t t' : Tree} {counts counts' : CollapseCounts}
      (hc : (t.node id).children[pos]? = some c) (hrole : (t.node c).role = .literal text)
      (rest : Scans id (pos + 1) (t.modify c Node.asTerminal)
        { counts with terminals := counts.terminals + 1 } t' counts') :
      Scans id pos t counts t' counts'
  | splice {pos c : Nat} {caption : String} {t t' : Tree} {counts counts' : CollapseCounts}
      (hc : (t.node id).children[pos]? = some c) (hrole : (t.node c).role = .wrapper caption)
      (rest : Scans id pos (t.splice id pos c)
        { counts with spliced := counts.spliced + 1 } t' counts') : Scans id pos t counts t' counts'

/-- The loop over a stack ends with the given table and counts. -/
inductive Collapses : List NodeId → Tree → CollapseCounts → Tree → CollapseCounts → Prop where
  | done {t : Tree} {counts : CollapseCounts} : Collapses [] t counts t counts
  | visit {id : Nat} {ids : List NodeId} {t t' t'' : Tree} {counts counts' counts'' : CollapseCounts}
      (scan : Scans id 0 t counts t' counts')
      (rest : Collapses ((t'.node id).children ++ ids) t' counts' t'' counts'') :
      Collapses (id :: ids) t counts t'' counts''

/-- What has become of the table `t₀` in the course of its collapse. -/
structure Collapsing (t₀ t : Tree) (counts : CollapseCounts) : Prop where
  wellFormed : t.WellFormed
  size_eq : t.size = t₀.size
  outcome : ∀ j, (t.node j).asTerminal.vacated = (t₀.node j).asTerminal.vacated
  agree : t₀.Agree t root
  root_role : (t.node root).role.isTransient = false
  spliced : counts.spliced + t.reachable.length = t₀.reachable.length
  terminals : counts.terminals + t.literalCount = t₀.literalCount

theorem Agree.refl (t : Tree) (a : Nat) : t.Agree t a := ⟨rfl, fun _ => rfl, rfl⟩

theorem Agree.trans {t t' t'' : Tree} {a : Nat} (h : t.Agree t' a) (h' : t'.Agree t'' a) :
    t.Agree t'' a := by
  refine ⟨h'.outcome.trans h.outcome, fun parent => ?_, h'.gathered.trans h.gathered⟩
  exact (h'.standInsBelow parent).trans (h.standInsBelow parent)

/-- The literal `c` is among the children of `id`. -/
structure LiteralAt (t : Tree) (id c : Nat) : Prop where
  wellFormed : t.WellFormed
  mem : c ∈ (t.node id).children
  role : ∃ text, (t.node c).role = .literal text

namespace LiteralAt

variable {t : Tree} {id c : Nat}

theorem lt_size (h : t.LiteralAt id c) : c < t.size := h.wellFormed.lt_size h.mem

theorem node_rename_self (h : t.LiteralAt id c) :
    (t.modify c Node.asTerminal).node c = (t.node c).asTerminal :=
  node_modify_self t _ h.lt_size

theorem role_rename_self (h : t.LiteralAt id c) :
    ((t.modify c Node.asTerminal).node c).role.isTransient = false := by
  obtain ⟨text, hrole⟩ := h.role
  rw [h.node_rename_self, Node.asTerminal, hrole]
  rfl

theorem links_rename (h : t.LiteralAt id c) (j : Nat) :
    ((t.modify c Node.asTerminal).node j).children = (t.node j).children ∧
      ((t.modify c Node.asTerminal).node j).parent = (t.node j).parent ∧
      ((t.modify c Node.asTerminal).node j).literal = (t.node j).literal := by
  obtain ⟨text, hrole⟩ := h.role
  by_cases hj : c = j
  · subst hj
    rw [h.node_rename_self, Node.asTerminal, hrole]
    exact ⟨rfl, rfl, rfl⟩
  · rw [node_modify_of_ne t _ hj]
    exact ⟨rfl, rfl, rfl⟩

theorem outcome_rename (h : t.LiteralAt id c) (j : Nat) :
    ((t.modify c Node.asTerminal).node j).asTerminal.vacated = (t.node j).asTerminal.vacated := by
  by_cases hj : c = j
  · subst hj
    rw [h.node_rename_self, Node.asTerminal_asTerminal]
  · rw [node_modify_of_ne t _ hj]

theorem wellFormed_rename (h : t.LiteralAt id c) : (t.modify c Node.asTerminal).WellFormed := by
  have hlinks := h.links_rename c
  rw [h.node_rename_self] at hlinks
  exact h.wellFormed.modify hlinks.2.1 hlinks.1

theorem agree_rename (h : t.LiteralAt id c) (a : Nat) :
    t.Agree (t.modify c Node.asTerminal) a := by
  induction a using h.wellFormed.induct with
  | step a ih =>
    obtain ⟨hchildren, -, hliteral⟩ := h.links_rename a
    exact .of_children h.wellFormed h.wellFormed_rename (h.outcome_rename a) hliteral hchildren ih

theorem reachable_rename (h : t.LiteralAt id c) :
    (t.modify c Node.asTerminal).reachable = t.reachable := by
  have hwf := h.wellFormed
  have hwf' := h.wellFormed_rename
  rw [reachable, reachable, hwf.descendants_eq, hwf'.descendants_eq,
    hwf.branch_congr hwf' fun d _ => (h.links_rename d).1]

theorem reaches_rename (h : t.LiteralAt id c) {d : Nat} :
    (t.modify c Node.asTerminal).Reaches root d ↔ t.Reaches root d := by
  rw [← h.wellFormed_rename.mem_reachable, h.reachable_rename, h.wellFormed.mem_reachable]

theorem literalCount_rename (h : t.LiteralAt id c) (hid : t.Reaches root id) :
    (t.modify c Node.asTerminal).literalCount + 1 = t.literalCount := by
  have hwf := h.wellFormed
  obtain ⟨text, hrole⟩ := h.role
  have hmem : c ∈ t.reachable := hwf.mem_reachable.2 (hid.tail h.mem)
  have hperm := List.perm_cons_erase hmem
  have hrest : c ∉ t.reachable.erase c := hwf.nodup_reachable.not_mem_erase
  unfold literalCount
  rw [h.reachable_rename, hperm.countP_eq, hperm.countP_eq, List.countP_cons, List.countP_cons,
    h.role_rename_self, hrole]
  have hsame : (t.reachable.erase c).countP (fun n =>
      ((t.modify c Node.asTerminal).node n).role.isTransient &&
        ((t.modify c Node.asTerminal).node n).role.isLiteral) =
      (t.reachable.erase c).countP fun n =>
        (t.node n).role.isTransient && (t.node n).role.isLiteral := by
    refine List.countP_congr fun n hn => ?_
    have hne : c ≠ n := fun heq => hrest (heq ▸ hn)
    rw [node_modify_of_ne t _ hne]
  rw [hsame]
  simp [Role.isTransient, Role.isLiteral]

end LiteralAt

namespace WrapperAt

variable {t : Tree} {id w : Nat} {pre post : List NodeId}

theorem reachable_splice (h : t.WrapperAt id pre w post) (hid : t.Reaches root id) :
    t.reachable.Perm (w :: (t.splice id pre.length w).reachable) := by
  have hwf := h.wellFormed
  have hwf' := h.wellFormed_splice
  have hnot : w ∉ (t.splice id pre.length w).reachable := by
    intro hw
    exact ((h.reaches_splice hid).1 (hwf'.mem_reachable.1 hw)).2 rfl
  refine (List.perm_ext_iff_of_nodup hwf.nodup_reachable
    (List.nodup_cons.2 ⟨hnot, hwf'.nodup_reachable⟩)).2 fun d => ?_
  rw [List.mem_cons, hwf.mem_reachable, hwf'.mem_reachable, h.reaches_splice hid]
  constructor
  · intro hd
    by_cases hdw : d = w
    · exact .inl hdw
    · exact .inr ⟨hd, hdw⟩
  · rintro (heq | ⟨hd, -⟩)
    · exact heq ▸ hid.tail h.mem
    · exact hd

theorem literalCount_splice (h : t.WrapperAt id pre w post) (hid : t.Reaches root id) :
    (t.splice id pre.length w).literalCount = t.literalCount := by
  have hw : ((t.node w).role.isTransient && (t.node w).role.isLiteral) = false := by
    have hwrapper := h.wrapper
    cases hrole : (t.node w).role with
    | wrapper caption => rfl
    | plain => simp [hrole, Role.isWrapper] at hwrapper
    | literal text => simp [hrole, Role.isWrapper] at hwrapper
    | terminal text => simp [hrole, Role.isWrapper] at hwrapper
  unfold literalCount
  rw [(h.reachable_splice hid).countP_eq, List.countP_cons, hw]
  simp only [h.role_splice]
  rfl

end WrapperAt

namespace Collapsing

variable {t₀ t : Tree} {counts : CollapseCounts} {id : Nat}

theorem start (h : t.WellFormed) (hrole : (t.node root).role.isTransient = false) :
    Collapsing t t ⟨0, 0⟩ where
  wellFormed := h
  size_eq := rfl
  outcome _ := rfl
  agree := .refl t root
  root_role := hrole
  spliced := Nat.zero_add _
  terminals := Nat.zero_add _

theorem splice {w : Nat} {pre post : List NodeId} (h : Collapsing t₀ t counts)
    (hat : t.WrapperAt id pre w post) (hpre : ∀ c ∈ pre, (t.node c).role.isWrapper = false)
    (hid : t.Reaches root id) : Collapsing t₀ (t.splice id pre.length w)
      { counts with spliced := counts.spliced + 1 } := by
  have hroot : root ≠ w := by
    intro heq
    exact h.wellFormed.root_not_mem id (heq ▸ hat.mem)
  have hlength := (hat.reachable_splice hid).length_eq
  constructor
  · exact hat.wellFormed_splice
  · exact hat.size_splice.trans h.size_eq
  · intro j
    exact (hat.outcome_splice j).trans (h.outcome j)
  · exact h.agree.trans (hat.agree_splice hpre hroot)
  · rw [hat.role_splice]
    exact h.root_role
  · have hspliced := h.spliced
    rw [List.length_cons] at hlength
    show counts.spliced + 1 + _ = _
    omega
  · rw [hat.literalCount_splice hid]
    exact h.terminals

theorem rename {c : Nat} (h : Collapsing t₀ t counts) (hat : t.LiteralAt id c)
    (hid : t.Reaches root id) : Collapsing t₀ (t.modify c Node.asTerminal)
      { counts with terminals := counts.terminals + 1 } := by
  have hroot : c ≠ root := by
    intro heq
    exact h.wellFormed.root_not_mem id (heq ▸ hat.mem)
  constructor
  · exact hat.wellFormed_rename
  · rw [size_modify]
    exact h.size_eq
  · intro j
    exact (hat.outcome_rename j).trans (h.outcome j)
  · exact h.agree.trans (hat.agree_rename root)
  · rw [node_modify_of_ne t _ hroot]
    exact h.root_role
  · rw [hat.reachable_rename]
    exact h.spliced
  · have hterminals := h.terminals
    have hliterals := hat.literalCount_rename hid
    show counts.terminals + 1 + _ = _
    omega

/-- A node and the children that a scan has passed are all in the tree, so there are no more of them
than of the nodes of the tree. -/
theorem length_lt (h : Collapsing t₀ t counts) (hid : t.Reaches root id) {pre : List NodeId}
    (hpre : pre <+: (t.node id).children) : pre.length < t.reachable.length := by
  have hwf := h.wellFormed
  have hnot : id ∉ pre := by
    intro hmem
    have hlt := hwf.lt_of_mem (hpre.subset hmem)
    omega
  have hnodup : (id :: pre).Nodup := List.nodup_cons.2 ⟨hnot, (hwf.nodup id).sublist hpre.sublist⟩
  have hsub : id :: pre ⊆ t.reachable := by
    intro d hd
    cases List.mem_cons.1 hd with
    | inl heq => exact heq ▸ hwf.mem_reachable.2 hid
    | inr hd => exact hwf.mem_reachable.2 (hid.tail (hpre.subset hd))
  exact (List.subperm_of_subset hnodup hsub).length_le

end Collapsing

/-- What the scan of a node does to the others. -/
structure Scanned (id : Nat) (t t' : Tree) : Prop where
  /-- A node that is not transient does not become so. -/
  role : ∀ j, (t.node j).role.isTransient = false → (t'.node j).role.isTransient = false
  children : ∀ j, j ≠ id → (t.node j).role.isTransient = false →
    (t'.node j).children = (t.node j).children

namespace Scanned

theorem refl (id : Nat) (t : Tree) : Scanned id t t := ⟨fun _ hrole => hrole, fun _ _ _ => rfl⟩

theorem trans {id : Nat} {t t' t'' : Tree} (h : Scanned id t t') (h' : Scanned id t' t'') :
    Scanned id t t'' := by
  constructor
  · intro j hrole
    exact h'.role j (h.role j hrole)
  · intro j hj hrole
    exact (h'.children j hj (h.role j hrole)).trans (h.children j hj hrole)

theorem splice {t : Tree} {id w : Nat} {pre post : List NodeId} (h : t.WrapperAt id pre w post) :
    Scanned id t (t.splice id pre.length w) := by
  constructor
  · intro j hrole
    rw [h.role_splice]
    exact hrole
  · intro j hj hrole
    refine h.children_splice_of_ne hj ?_
    rintro rfl
    have hwrapper := Role.isTransient_of_isWrapper h.wrapper
    rw [hrole] at hwrapper
    cases hwrapper

theorem rename {t : Tree} {id c : Nat} (h : t.LiteralAt id c) :
    Scanned id t (t.modify c Node.asTerminal) := by
  constructor
  · intro j hrole
    by_cases hj : c = j
    · subst hj
      exact h.role_rename_self
    · rw [node_modify_of_ne t _ hj]
      exact hrole
  · intro j _ _
    exact (h.links_rename j).1

end Scanned

section Scan

variable {t₀ t : Tree} {counts : CollapseCounts} {id fuel : Nat}

theorem scan_none {pos : Nat} (hnone : (t.node id).children[pos]? = none) :
    scan id fuel pos t counts = (t, counts) := by
  cases fuel with
  | zero => rfl
  | succ fuel => rw [scan, hnone]

theorem scan_pass {pos c : Nat} (hc : (t.node id).children[pos]? = some c)
    (hrole : (t.node c).role.isTransient = false) :
    scan id (fuel + 1) pos t counts = scan id fuel (pos + 1) t counts := by
  rw [scan, hc]
  cases hr : (t.node c).role with
  | plain => simp only [hr]
  | terminal text => simp only [hr]
  | wrapper caption => simp [hr, Role.isTransient] at hrole
  | literal text => simp [hr, Role.isTransient] at hrole

theorem scan_rename {pos c : Nat} {text : String} (hc : (t.node id).children[pos]? = some c)
    (hrole : (t.node c).role = .literal text) :
    scan id (fuel + 1) pos t counts = scan id fuel (pos + 1) (t.modify c Node.asTerminal)
      { counts with terminals := counts.terminals + 1 } := by
  rw [scan, hc]
  simp only [hrole]

theorem scan_splice {pos c : Nat} {caption : String} (hc : (t.node id).children[pos]? = some c)
    (hrole : (t.node c).role = .wrapper caption) :
    scan id (fuel + 1) pos t counts = scan id fuel pos (t.splice id pos c)
      { counts with spliced := counts.spliced + 1 } := by
  rw [scan, hc]
  simp only [hrole]

/-- A scan goes on to the last child and leaves no transient one. -/
theorem scan_spec {pre rest : List NodeId} (h : Collapsing t₀ t counts) (hid : t.Reaches root id)
    (hrole : (t.node id).role.isTransient = false) (hchildren : (t.node id).children = pre ++ rest)
    (hpre : ∀ c ∈ pre, (t.node c).role.isTransient = false)
    (hfuel : t.reachable.length ≤ fuel + pre.length) :
    ∃ t' counts', scan id fuel pre.length t counts = (t', counts') ∧
      Scans id pre.length t counts t' counts' ∧ Collapsing t₀ t' counts' ∧ Scanned id t t' ∧
      ∀ c ∈ (t'.node id).children, (t'.node c).role.isTransient = false := by
  induction fuel generalizing t counts pre rest with
  | zero =>
    have hlt := h.length_lt hid ⟨rest, hchildren.symm⟩
    omega
  | succ fuel ih =>
    cases rest with
    | nil =>
      have hnone : (t.node id).children[pre.length]? = none := by simp [hchildren]
      rw [List.append_nil] at hchildren
      exact ⟨t, counts, scan_none hnone, .done hnone, h, .refl id t, hchildren ▸ hpre⟩
    | cons c rest =>
      have hc : (t.node id).children[pre.length]? = some c := by simp [hchildren]
      have hmem : c ∈ (t.node id).children := by simp [hchildren]
      have hpassed : (pre ++ [c]).length = pre.length + 1 := by simp
      have hsplit : pre ++ c :: rest = (pre ++ [c]) ++ rest := by simp
      by_cases htransient : (t.node c).role.isTransient = false
      · have hpre' : ∀ d ∈ pre ++ [c], (t.node d).role.isTransient = false :=
          List.forall_mem_append.2 ⟨hpre, List.forall_mem_singleton.2 htransient⟩
        obtain ⟨t', counts', hrun, hscans, hend⟩ :=
          ih h hid hrole (hchildren.trans hsplit) hpre' (by omega)
        rw [hpassed] at hrun hscans
        exact ⟨t', counts', (scan_pass hc htransient).trans hrun, .pass hc htransient hscans, hend⟩
      cases hr : (t.node c).role with
      | plain => simp [hr, Role.isTransient] at htransient
      | terminal text => simp [hr, Role.isTransient] at htransient
      | literal text =>
        have hat : t.LiteralAt id c := ⟨h.wellFormed, hmem, text, hr⟩
        have hscanned := Scanned.rename hat
        have hpre' : ∀ d ∈ pre ++ [c],
            ((t.modify c Node.asTerminal).node d).role.isTransient = false :=
          List.forall_mem_append.2 ⟨fun d hd => hscanned.role d (hpre d hd),
            List.forall_mem_singleton.2 hat.role_rename_self⟩
        have hlength : (t.modify c Node.asTerminal).reachable.length = t.reachable.length := by
          rw [hat.reachable_rename]
        obtain ⟨t', counts', hrun, hscans, hend, hscanned', hclean⟩ :=
          ih (h.rename hat hid) (hat.reaches_rename.2 hid) (hscanned.role id hrole)
            (((hat.links_rename id).1.trans hchildren).trans hsplit) hpre' (by omega)
        rw [hpassed] at hrun hscans
        exact ⟨t', counts', (scan_rename hc hr).trans hrun, .rename hc hr hscans, hend,
          hscanned.trans hscanned', hclean⟩
      | wrapper caption =>
        have hat : t.WrapperAt id pre c rest := ⟨h.wellFormed, hchildren, by rw [hr]; rfl⟩
        have hscanned := Scanned.splice hat
        have hwrapper : ∀ d ∈ pre, (t.node d).role.isWrapper = false :=
          fun d hd => Role.isWrapper_eq_false (hpre d hd)
        have hreach : (t.splice id pre.length c).Reaches root id :=
          (hat.reaches_splice hid).2 ⟨hid, Nat.ne_of_lt hat.lt⟩
        have hchildren' : ((t.splice id pre.length c).node id).children =
            pre ++ ((t.node c).children ++ rest) := by
          rw [hat.node_splice_self, ← List.append_assoc]
        have hlength := (hat.reachable_splice hid).length_eq
        rw [List.length_cons] at hlength
        obtain ⟨t', counts', hrun, hscans, hend, hscanned', hclean⟩ :=
          ih (h.splice hat hwrapper hid) hreach (hscanned.role id hrole) hchildren'
            (fun d hd => hscanned.role d (hpre d hd)) (by omega)
        exact ⟨t', counts', (scan_splice hc hr).trans hrun, .splice hc hr hscans, hend,
          hscanned.trans hscanned', hclean⟩

theorem scan_of_clean (hclean : ∀ c ∈ (t.node id).children, (t.node c).role.isTransient = false)
    (pos : Nat) : scan id fuel pos t counts = (t, counts) := by
  induction fuel generalizing pos with
  | zero => rfl
  | succ fuel ih =>
    cases hc : (t.node id).children[pos]? with
    | none => exact scan_none hc
    | some c => rw [scan_pass hc (hclean c (List.mem_of_getElem? hc)), ih]

end Scan

/-- The state of the loop over the stack. What is done and what is on the stack makes up an upper
part of the tree, in which nothing that is done has a transient child. -/
structure Frontier (t : Tree) (done stack : List NodeId) : Prop where
  nodup : (done ++ stack).Nodup
  root_mem : root ∈ done ++ stack
  linked : ∀ d ∈ done ++ stack, d = root ∨ ∃ p ∈ done, d ∈ (t.node p).children
  clean : ∀ p ∈ done, ∀ c ∈ (t.node p).children, (t.node c).role.isTransient = false
  closed : ∀ p ∈ done, ∀ c ∈ (t.node p).children, c ∈ done ++ stack

namespace Frontier

variable {t₀ t t' : Tree} {counts : CollapseCounts} {done stack ids : List NodeId} {id : Nat}

theorem role (h : Frontier t done stack) (hroot : (t.node root).role.isTransient = false)
    {d : Nat} (hd : d ∈ done ++ stack) : (t.node d).role.isTransient = false := by
  cases h.linked d hd with
  | inl heq => exact heq ▸ hroot
  | inr hp =>
    obtain ⟨p, hp, hc⟩ := hp
    exact h.clean p hp d hc

theorem reaches (h : Frontier t done stack) (hwf : t.WellFormed) (d : Nat)
    (hd : d ∈ done ++ stack) : t.Reaches root d := by
  induction d using Nat.strongRecOn with
  | _ d ih =>
    cases h.linked d hd with
    | inl heq => exact heq ▸ .refl
    | inr hp =>
      obtain ⟨p, hp, hc⟩ := hp
      exact (ih p (hwf.lt_of_mem hc) (List.mem_append_left stack hp)).tail hc

theorem not_mem_done (h : Frontier t done (id :: ids)) : id ∉ done ++ ids :=
  (List.nodup_cons.1 (List.nodup_middle.1 h.nodup)).1

/-- The scan of the next node leaves the children of those that are done. -/
theorem children_scanned (h : Frontier t done (id :: ids))
    (hroot : (t.node root).role.isTransient = false) (hscanned : Scanned id t t') {p : Nat}
    (hp : p ∈ done) : (t'.node p).children = (t.node p).children := by
  refine hscanned.children p ?_ (h.role hroot (List.mem_append_left _ hp))
  rintro rfl
  exact h.not_mem_done (List.mem_append_left ids hp)

/-- A child of the scanned node is on neither list, since it has no other parent. -/
theorem not_mem_of_scanned (h : Frontier t done (id :: ids))
    (hroot : (t.node root).role.isTransient = false) (hwf' : t'.WellFormed)
    (hscanned : Scanned id t t') {c : Nat} (hc : c ∈ (t'.node id).children) : c ∉ done ++ ids := by
  intro hmem
  have hmem' : c ∈ done ++ id :: ids := List.perm_middle.mem_iff.2 (List.mem_cons_of_mem id hmem)
  cases h.linked c hmem' with
  | inl heq => exact hwf'.root_not_mem id (heq ▸ hc)
  | inr hp =>
    obtain ⟨p, hp, hcp⟩ := hp
    rw [← h.children_scanned hroot hscanned hp] at hcp
    have heq := hwf'.parent_unique hc hcp
    subst heq
    exact h.not_mem_done (List.mem_append_left ids hp)

/-- After its scan a node is done, and its children take its place on the stack. -/
theorem scanned (h : Frontier t done (id :: ids)) (hroot : (t.node root).role.isTransient = false)
    (hwf' : t'.WellFormed) (hscanned : Scanned id t t')
    (hclean : ∀ c ∈ (t'.node id).children, (t'.node c).role.isTransient = false) :
    Frontier t' (id :: done) ((t'.node id).children ++ ids) := by
  obtain ⟨hidnot, hrest⟩ := List.nodup_cons.1 (List.nodup_middle.1 h.nodup)
  have hchildren : ∀ p ∈ done, (t'.node p).children = (t.node p).children :=
    fun _ hp => h.children_scanned hroot hscanned hp
  have hmem : ∀ {d : Nat}, d ∈ done ++ id :: ids →
      d ∈ (id :: done) ++ ((t'.node id).children ++ ids) := by
    intro d hd
    simp only [List.mem_append, List.mem_cons] at hd ⊢
    tauto
  constructor
  · rw [List.cons_append, List.nodup_cons]
    constructor
    · intro hid
      simp only [List.mem_append] at hid hidnot
      rcases hid with hid | hid | hid
      · exact hidnot (.inl hid)
      · exact absurd (hwf'.lt_of_mem hid) (Nat.lt_irrefl id)
      · exact hidnot (.inr hid)
    · rw [(List.perm_append_comm_assoc done _ ids).nodup_iff]
      refine List.nodup_append.2 ⟨hwf'.nodup id, hrest, ?_⟩
      intro c hc d hd heq
      exact h.not_mem_of_scanned hroot hwf' hscanned hc (heq ▸ hd)
  · exact hmem h.root_mem
  · intro d hd
    by_cases hdc : d ∈ (t'.node id).children
    · exact .inr ⟨id, List.mem_cons_self, hdc⟩
    · have hold : d ∈ done ++ id :: ids := by
        simp only [List.mem_append, List.mem_cons] at hd ⊢
        tauto
      cases h.linked d hold with
      | inl heq => exact .inl heq
      | inr hp =>
        obtain ⟨p, hp, hc⟩ := hp
        exact .inr ⟨p, List.mem_cons_of_mem id hp, hchildren p hp ▸ hc⟩
  · intro p hp c hc
    cases List.mem_cons.1 hp with
    | inl heq => exact hclean c (heq ▸ hc)
    | inr hp =>
      rw [hchildren p hp] at hc
      exact hscanned.role c (h.clean p hp c hc)
  · intro p hp c hc
    cases List.mem_cons.1 hp with
    | inl heq =>
      rw [heq] at hc
      simp only [List.mem_append]
      tauto
    | inr hp =>
      rw [hchildren p hp] at hc
      exact hmem (h.closed p hp c hc)

end Frontier

section Loop

variable {t₀ t : Tree} {counts : CollapseCounts} {done stack : List NodeId} {fuel : Nat}

/-- The loop ends with an empty stack, everything being done. -/
theorem collapseFrom_spec (h : Collapsing t₀ t counts) (hfrontier : Frontier t done stack)
    (hfuel : t.size ≤ fuel + done.length) :
    ∃ t' counts', collapseFrom fuel stack t counts = (t', counts') ∧
      Collapses stack t counts t' counts' ∧ Collapsing t₀ t' counts' ∧
      ∃ done', Frontier t' done' [] := by
  induction fuel generalizing t counts done stack with
  | zero =>
    cases stack with
    | nil => exact ⟨t, counts, rfl, .done, h, done, hfrontier⟩
    | cons id ids =>
      have hwf := h.wellFormed
      have hsub : done ++ id :: ids ⊆ List.range t.size := by
        intro d hd
        exact List.mem_range.2 (hwf.lt_size_of_reaches hwf.size_pos (hfrontier.reaches hwf d hd))
      have hle := (List.subperm_of_subset hfrontier.nodup hsub).length_le
      rw [List.length_range, List.length_append, List.length_cons] at hle
      omega
  | succ fuel ih =>
    cases stack with
    | nil => exact ⟨t, counts, rfl, .done, h, done, hfrontier⟩
    | cons id ids =>
      have hwf := h.wellFormed
      have hmem : id ∈ done ++ id :: ids := List.mem_append_right done List.mem_cons_self
      have hlength : t.reachable.length ≤ t.size := by
        rw [reachable, hwf.descendants_eq]
        exact hwf.length_preorder_branch_le root
      have hall : (t.node id).children = [] ++ (t.node id).children := rfl
      have hnone : ∀ c ∈ ([] : List NodeId), (t.node c).role.isTransient = false := by simp
      have hfuel' : t.reachable.length ≤ t.size + ([] : List NodeId).length := hlength
      obtain ⟨t₁, counts₁, hrun, hscans, h₁, hscanned, hclean⟩ :=
        scan_spec h (hfrontier.reaches hwf id hmem) (hfrontier.role h.root_role hmem) hall hnone
          hfuel'
      have hsize : t₁.size = t.size := h₁.size_eq.trans h.size_eq.symm
      obtain ⟨t', counts', hloop, hcollapses, hend⟩ :=
        ih h₁ (hfrontier.scanned h.root_role h₁.wellFormed hscanned hclean)
          (by rw [List.length_cons]; omega)
      refine ⟨t', counts', ?_, .visit hscans hcollapses, hend⟩
      rw [collapseFrom]
      rw [List.length_nil] at hrun
      rw [hrun]
      exact hloop

/-- Below nodes that have nothing transient below them the loop changes nothing. -/
theorem collapseFrom_of_clean (hclean : ∀ d, t.Reaches root d → ∀ c ∈ (t.node d).children,
      (t.node c).role.isTransient = false) (hstack : ∀ d ∈ stack, t.Reaches root d) :
    collapseFrom fuel stack t counts = (t, counts) := by
  induction fuel generalizing stack with
  | zero => rfl
  | succ fuel ih =>
    cases stack with
    | nil => rfl
    | cons id ids =>
      have hid := hstack id List.mem_cons_self
      rw [collapseFrom, scan_of_clean (hclean id hid)]
      refine ih fun d hd => ?_
      cases List.mem_append.1 hd with
      | inl hd => exact hid.tail hd
      | inr hd => exact hstack d (List.mem_cons_of_mem id hd)

end Loop

namespace WellFormed

variable {t : Tree}

theorem hasTransient_eq_false (h : t.WellFormed) :
    t.hasTransient = false ↔ ∀ d, t.Reaches root d → (t.node d).role.isTransient = false := by
  rw [hasTransient, List.any_eq_false]
  constructor
  · intro hany d hd
    exact Bool.eq_false_iff.2 (hany d (h.mem_reachable.2 hd))
  · intro hall d hd
    exact Bool.eq_false_iff.1 (hall d (h.mem_reachable.1 hd))

/-- A node without transient nodes below it keeps its children and its text. -/
theorem settled_of_clean (h : t.WellFormed) {id : Nat}
    (hclean : ∀ d, t.Reaches id d → (t.node d).role.isTransient = false)
    (hbelow : ∀ c ∈ (t.node id).children, (t.entries c).standIns id = [t.entries c]) :
    t.standInsBelow id id = (t.node id).children.map t.entries ∧
      t.settled (t.node id).parent id = t.node id := by
  have hstand : t.standInsBelow id id = (t.node id).children.map t.entries := by
    rw [standInsBelow, Branch.standInsAll_eq, List.flatMap_map, List.map_eq_flatMap]
    exact List.flatMap_congr hbelow
  have hlabels : ((t.node id).children.map t.entries).map (fun b => b.label.1) =
      (t.node id).children := by
    rw [List.map_map]
    refine (List.map_congr_left fun c _ => ?_).trans (List.map_id _)
    rw [Function.comp_apply, h.entries_eq]
    rfl
  have habsorbed : Branch.absorbed ((t.node id).children.map t.entries) = none :=
    h.absorbed_eq_none fun c hc => Role.isWrapper_eq_false (hclean c (.single hc))
  refine ⟨hstand, ?_⟩
  rw [settled, gathered, hstand, hlabels, habsorbed, joinRecorded_none,
    Node.asTerminal_of_not_transient (hclean id .refl)]

theorem standIns_of_clean (h : t.WellFormed) (id : Nat) {p : Nat}
    (hid : id ∈ (t.node p).children)
    (hclean : ∀ d, t.Reaches id d → (t.node d).role.isTransient = false) :
    (t.entries id).standIns p = [t.entries id] := by
  induction id using h.induct generalizing p with
  | step id ih =>
    have hbelow : ∀ c ∈ (t.node id).children, (t.entries c).standIns id = [t.entries c] :=
      fun c hc => ih c hc hc fun d hd => hclean d (.head hc hd)
    obtain ⟨hstand, hsettled⟩ := h.settled_of_clean hclean hbelow
    rw [h.parent_eq hid] at hsettled
    rw [h.standIns_entries, Role.isWrapper_eq_false (hclean id .refl), hstand, hsettled,
      ← h.entries_eq]
    rfl

theorem collapsed_of_clean (h : t.WellFormed)
    (hclean : ∀ d, t.Reaches root d → (t.node d).role.isTransient = false) :
    (t.entries root).collapsed = t.entries root := by
  obtain ⟨hstand, hsettled⟩ := h.settled_of_clean hclean fun c hc =>
    h.standIns_of_clean c hc fun d hd => hclean d (.head hc hd)
  rw [h.root_parent] at hsettled
  rw [h.collapsed_entries_root (hclean root .refl), hsettled, hstand, ← h.entries_eq]

/-- The collapse of a tree ends, and no transient node is left. -/
theorem collapse_spec (h : t.WellFormed) (hrole : (t.node root).role.isTransient = false) :
    Collapses [root] t ⟨0, 0⟩ t.collapse.1 t.collapse.2 ∧
      Collapsing t t.collapse.1 t.collapse.2 ∧
      ∀ d, t.collapse.1.Reaches root d → (t.collapse.1.node d).role.isTransient = false := by
  have hstart : Frontier t [] [root] := by
    constructor <;> simp
  obtain ⟨t', counts', hrun, hcollapses, hend, done, hfrontier⟩ :=
    collapseFrom_spec (.start h hrole) hstart (Nat.le_refl t.size)
  have hcollapse : t.collapse = (t', counts') := hrun
  rw [hcollapse]
  refine ⟨hcollapses, hend, fun d hd => ?_⟩
  have hmem : d ∈ done ++ [] := by
    induction hd with
    | refl => exact hfrontier.root_mem
    | tail _ hc ih =>
      rw [List.append_nil] at ih
      exact hfrontier.closed _ ih _ hc
  exact hfrontier.role hend.root_role hmem

theorem wellFormed_collapse (h : t.WellFormed) (hrole : (t.node root).role.isTransient = false) :
    t.collapse.1.WellFormed :=
  (h.collapse_spec hrole).2.1.wellFormed

/-- A collapse leaves of every node all that is neither its name or role, nor a link, nor its text.
-/
theorem apply_node_collapse {α : Type} (g : Node → α)
    (hg : ∀ (n : Node) name role parent children literal,
      g { n with name, role, parent, children, literal } = g n)
    (h : t.WellFormed) (hrole : (t.node root).role.isTransient = false) (j : Nat) :
    g (t.collapse.1.node j) = g (t.node j) := by
  have hsame : ∀ n : Node, g n.asTerminal.vacated = g n := by
    intro n
    unfold Node.asTerminal
    cases n.role <;> exact hg n _ _ _ _ _
  rw [← hsame (t.collapse.1.node j), (h.collapse_spec hrole).2.1.outcome j, hsame]

theorem collapse_collapse (h : t.WellFormed) (hrole : (t.node root).role.isTransient = false) :
    t.collapse.1.collapse = (t.collapse.1, ⟨0, 0⟩) := by
  obtain ⟨-, -, hclean⟩ := h.collapse_spec hrole
  have hstack : ∀ d ∈ [root], t.collapse.1.Reaches root d := by
    intro d hd
    exact List.mem_singleton.1 hd ▸ .refl
  exact collapseFrom_of_clean (fun d hd c hc => hclean c (hd.tail hc)) hstack

theorem literalCount_collapse (h : t.WellFormed)
    (hrole : (t.node root).role.isTransient = false) : t.collapse.1.literalCount = 0 := by
  obtain ⟨-, hend, hclean⟩ := h.collapse_spec hrole
  refine List.countP_eq_zero.2 fun d hd => ?_
  rw [hclean d (hend.wellFormed.mem_reachable.1 hd)]
  simp

/-- The collapsed table holds the tree that the recursion gives. -/
theorem entries_collapse (h : t.WellFormed) (hrole : (t.node root).role.isTransient = false) :
    t.collapse.1.entries root = (t.entries root).collapsed := by
  obtain ⟨-, hend, hclean⟩ := h.collapse_spec hrole
  have hwf' := hend.wellFormed
  rw [← hwf'.collapsed_of_clean hclean, hwf'.collapsed_entries_root hend.root_role,
    h.collapsed_entries_root hrole, hend.agree.settled, hend.agree.standInsBelow]

end WellFormed

end RankedGrammar.Tree
