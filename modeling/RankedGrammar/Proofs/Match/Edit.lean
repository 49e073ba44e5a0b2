import RankedGrammar.Proofs.Diagnostic.Semilattice
import RankedGrammar.Proofs.Match.Simulation

/-!
The single edits that a run makes of its table. Whatever state it begins in, an attempt changes
nothing but its own node and the nodes made since, and makes new nodes below these only; a node
keeps its origin, and what it expects is only ever added to. So the table after an attempt is told,
edit by edit, from the table before it, with no condition on that table.
-/
namespace RankedGrammar

namespace Expectation

/-- There is an entry at the same place whose names begin with those of `x`. -/
def Kept (x : Expectation) (ys : List Expectation) : Prop :=
  ∃ y ∈ ys, y.position = x.position ∧ x.names <+: y.names

variable {a b x : Expectation} {xs ys : List Expectation}

theorem kept_of_mem (h : x ∈ xs) : x.Kept xs := ⟨x, h, rfl, List.prefix_rfl⟩

theorem kept_union : a.Kept (a.union b :: xs) :=
  ⟨a.union b, List.mem_cons_self, rfl, List.prefix_append _ _⟩

theorem Kept.cons (h : x.Kept xs) : x.Kept (b :: xs) := by
  obtain ⟨y, hy, hkept⟩ := h
  exact ⟨y, List.mem_cons_of_mem b hy, hkept⟩

theorem kept_mergeInto {rest : List Expectation → List Expectation}
    (h : ∀ bs, ∀ x ∈ xs, x.Kept (rest bs)) (bs : List Expectation) :
    ∀ x ∈ a :: xs, x.Kept (a.mergeInto rest bs) := by
  induction bs with
  | nil =>
    exact List.forall_mem_cons.2 ⟨kept_of_mem List.mem_cons_self, fun x hx => (h [] x hx).cons⟩
  | cons b bs ih =>
    rw [mergeInto]
    split
    · exact fun x hx => (ih x hx).cons
    split
    · exact List.forall_mem_cons.2
        ⟨kept_of_mem List.mem_cons_self, fun x hx => (h (b :: bs) x hx).cons⟩
    · exact List.forall_mem_cons.2 ⟨kept_union, fun x hx => (h bs x hx).cons⟩

/-- A merge keeps the entries on the left, also where they are in no order. -/
theorem kept_merge (xs ys : List Expectation) : ∀ x ∈ xs, x.Kept (merge xs ys) := by
  induction xs generalizing ys with
  | nil => simp
  | cons a xs ih =>
    cases ys with
    | nil => exact fun x hx => kept_of_mem hx
    | cons b ys => exact kept_mergeInto ih (b :: ys)

end Expectation

namespace Expectations

/-- Every entry is still there, with the names that it had before any others. -/
def Grows (e e' : Expectations) : Prop := ∀ x ∈ e.entries, x.Kept e'.entries

theorem Grows.refl (e : Expectations) : e.Grows e := fun _ => Expectation.kept_of_mem

theorem Grows.trans {e e' e'' : Expectations} (h : e.Grows e') (h' : e'.Grows e'') :
    e.Grows e'' := by
  intro x hx
  obtain ⟨y, hy, hplace, hnames⟩ := h x hx
  obtain ⟨z, hz, hplace', hnames'⟩ := h' y hy
  exact ⟨z, hz, hplace'.trans hplace, hnames.trans hnames'⟩

theorem grows_merge (e e' : Expectations) : e.Grows (e.merge e') :=
  Expectation.kept_merge e.entries e'.entries

end Expectations

namespace Tree

/-- What a node may come to expect: names at the places of offsets, and what nodes of the table
expect. -/
inductive Gathered (src : Source) (t : Tree) : Expectations → Prop where
  | empty : Gathered src t .empty
  | place (offset : Nat) (name : String) : Gathered src t (.single (src.position offset) name)
  | node (j : NodeId) : Gathered src t (t.node j).expected
  | merge {e e'} (h : Gathered src t e) (h' : Gathered src t e') : Gathered src t (e.merge e')

variable {src : Source} {t t' t'' : Tree} {id base : Nat}

theorem Gathered.congr {e : Expectations} (h : t.Gathered src e)
    (hsame : ∀ j, (t'.node j).expected = (t.node j).expected) : t'.Gathered src e := by
  induction h with
  | empty => exact .empty
  | place offset name => exact .place offset name
  | node j =>
    rw [← hsame j]
    exact .node j
  | merge _ _ ih ih' => exact .merge ih ih'

theorem Gathered.foldl {α : Type} {f : α → Expectations} (hf : ∀ a, t.Gathered src (f a))
    {as : List α} {e : Expectations} (he : t.Gathered src e) :
    t.Gathered src (as.foldl (fun e a => e.merge (f a)) e) := by
  induction as generalizing e with
  | nil => exact he
  | cons a as ih => exact ih (he.merge (hf a))

theorem gathered_expected (src : Source) (t : Tree) (id : NodeId) :
    t.Gathered src (t.expected id) :=
  .foldl (fun j => .node j) .empty

/-- One edit by work on the node `id` that began when there were `base` nodes: a change of the node
or of one made since, or a new node below one of these. -/
inductive Edit (src : Source) (id base : Nat) (t : Tree) : Tree → Prop where
  | change {n : Nat} {f : Node → Node} {e : Expectations} (hscope : n = id ∨ base ≤ n)
      (hn : n < t.size) (horigin : (t.node n).SameOrigin (f (t.node n)))
      (hexpected : (f (t.node n)).expected = (t.node n).expected.merge e)
      (he : t.Gathered src e) : Edit src id base t (t.modify n f)
  | push {n : Node} {p : Nat} (hscope : p = id ∨ base ≤ p) (hp : p < t.size)
      (hparent : n.parent = some p) (hexpected : n.expected = .empty) :
      Edit src id base t (t.push n)

abbrev Edits (src : Source) (id base : Nat) : Tree → Tree → Prop :=
  Relation.ReflTransGen (Edit src id base)

theorem Edit.weaken {child base' : Nat} (hchild : base ≤ child) (hbase : base ≤ base')
    (h : Edit src child base' t t') : Edit src id base t t' := by
  have hscope : ∀ {n}, n = child ∨ base' ≤ n → n = id ∨ base ≤ n := by
    rintro n (rfl | hn)
    · exact .inr hchild
    · exact .inr (Nat.le_trans hbase hn)
  cases h with
  | change hn hlt horigin hexpected he => exact .change (hscope hn) hlt horigin hexpected he
  | push hp hlt hparent hexpected => exact .push (hscope hp) hlt hparent hexpected

theorem Edit.size_le (h : Edit src id base t t') : t.size ≤ t'.size := by
  cases h with
  | change => simp
  | push => simp

/-- Edits leave alone the nodes that were there before the work began, but the one worked on. -/
theorem Edit.node_eq (h : Edit src id base t t') {j : Nat} (hj : j < base) (hne : j ≠ id)
    (hbase : base ≤ t.size) : t'.node j = t.node j := by
  cases h with
  | @change n f e hscope =>
    have hnj : n ≠ j := by
      rintro rfl
      rcases hscope with rfl | hn
      · exact hne rfl
      · exact Nat.not_lt.2 hn hj
    exact node_modify_of_ne t f hnj
  | push => exact node_push_of_lt t _ (Nat.lt_of_lt_of_le hj hbase)

theorem Edit.origin (h : Edit src id base t t') {j : Nat} (hj : j < t.size) :
    (t.node j).SameOrigin (t'.node j) := by
  cases h with
  | @change n f e _ hn horigin =>
    by_cases hnj : n = j
    · subst hnj
      rw [node_modify_self t f hn]
      exact horigin
    · rw [node_modify_of_ne t f hnj]
      exact .refl _
  | push =>
    rw [node_push_of_lt t _ hj]
    exact .refl _

/-- What any node expects after an edit is what one expected before it, with what was gathered. -/
theorem Edit.expected (h : Edit src id base t t') (j : Nat) :
    ∃ e, t.Gathered src e ∧ (t'.node j).expected = (t.node j).expected.merge e := by
  cases h with
  | @change n f e _ hn _ hexpected he =>
    by_cases hnj : n = j
    · subst hnj
      exact ⟨e, he, by rw [node_modify_self t f hn, hexpected]⟩
    · exact ⟨.empty, .empty, by rw [node_modify_of_ne t f hnj, Expectations.merge_empty]⟩
  | @push n p _ _ _ hexpected =>
    refine ⟨.empty, .empty, ?_⟩
    rw [Expectations.merge_empty]
    rcases Nat.lt_trichotomy j t.size with hlt | rfl | hgt
    · rw [node_push_of_lt t n hlt]
    · rw [node_push_size, hexpected, node_of_size_le (Nat.le_refl _)]
      rfl
    · rw [node_of_size_le (Nat.le_of_lt hgt), node_of_size_le (by rw [size_push]; exact hgt)]

/-- A node made by the work has been made after its parent, which is the node worked on or has been
made by the work as well. -/
def Sprouted (id base : Nat) (t : Tree) : Prop :=
  ∀ j, base ≤ j → j < t.size → ∃ p < j, (t.node j).parent = some p ∧ (p = id ∨ base ≤ p)

theorem Edit.sprouted (h : Edit src id base t t') (ht : t.Sprouted id base) :
    t'.Sprouted id base := by
  intro j hj hlt
  by_cases hold : j < t.size
  · obtain ⟨p, hp, hparent, hscope⟩ := ht j hj hold
    exact ⟨p, hp, (h.origin hold).parent.trans hparent, hscope⟩
  · cases h with
    | change =>
      rw [size_modify] at hlt
      exact absurd hlt hold
    | @push n p hscope hp hparent =>
      rw [size_push] at hlt
      obtain rfl : j = t.size := by omega
      exact ⟨p, hp, by rw [node_push_size, hparent], hscope⟩

theorem Sprouted.mem_parents (h : t.Sprouted id base) {j fuel : Nat} (hj : base ≤ j)
    (hlt : j < t.size) (hfuel : j < fuel) : id ∈ t.parents fuel j := by
  induction j using Nat.strongRecOn generalizing fuel with
  | ind j ih =>
    obtain ⟨p, hp, hparent, hscope⟩ := h j hj hlt
    obtain ⟨fuel, rfl⟩ : ∃ k, fuel = k + 1 := ⟨fuel - 1, by omega⟩
    rw [parents, hparent]
    rcases hscope with rfl | hbase
    · exact List.mem_cons_self
    · exact List.mem_cons_of_mem p (ih p hp hbase (Nat.lt_trans hp hlt) (by omega))

/-- What the work on a node leaves of the table that it began with, and where its new nodes are. -/
structure Confined (id : Nat) (t t' : Tree) : Prop where
  size_le : t.size ≤ t'.size
  node_eq : ∀ j < t.size, j ≠ id → t'.node j = t.node j
  origin : (t.node id).SameOrigin (t'.node id)
  expected : (t.node id).expected.Grows (t'.node id).expected
  ancestors : ∀ j, t.size ≤ j → j < t'.size → id ∈ t'.ancestors j

theorem Edits.size_le (h : Edits src id base t t') : t.size ≤ t'.size := by
  induction h with
  | refl => exact Nat.le_refl _
  | tail _ hedit ih => exact Nat.le_trans ih hedit.size_le

theorem Edits.confined (hid : id < t.size) (h : Edits src id t.size t t') : t.Confined id t' := by
  -- The way up from a new node ends at `id` only when the work is over, so what is carried along is
  -- where the parents of new nodes are.
  suffices hrun : (∀ j < t.size, j ≠ id → t'.node j = t.node j) ∧
      (t.node id).SameOrigin (t'.node id) ∧ (t.node id).expected.Grows (t'.node id).expected ∧
      t'.Sprouted id t.size by
    obtain ⟨hnode, horigin, hexpected, hsprouted⟩ := hrun
    exact ⟨h.size_le, hnode, horigin, hexpected, fun j hj hlt => hsprouted.mem_parents hj hlt hlt⟩
  induction h with
  | refl =>
    exact ⟨fun _ _ _ => rfl, .refl _, .refl _, fun j hj hlt => absurd hlt (Nat.not_lt.2 hj)⟩
  | tail hedits hedit ih =>
    obtain ⟨hnode, horigin, hexpected, hsprouted⟩ := ih
    have hsize := Edits.size_le hedits
    obtain ⟨e, -, he⟩ := hedit.expected id
    refine ⟨fun j hj hne => (hedit.node_eq hj hne hsize).trans (hnode j hj hne),
      horigin.trans (hedit.origin (Nat.lt_of_lt_of_le hid hsize)), hexpected.trans ?_,
      hedit.sprouted hsprouted⟩
    rw [he]
    exact Expectations.grows_merge _ e

section Expected

variable {Q : Expectations → Prop} (hempty : Q .empty)
  (hplace : ∀ offset name, Q (.single (src.position offset) name))
  (hmerge : ∀ {e e'}, Q e → Q e' → Q (e.merge e'))

include hempty hplace hmerge

/-- What holds of names at the places of offsets and of merged sets holds of what is gathered. -/
theorem Gathered.induct (ht : ∀ j, Q (t.node j).expected) {e : Expectations}
    (he : t.Gathered src e) : Q e := by
  induction he with
  | empty => exact hempty
  | place offset name => exact hplace offset name
  | node j => exact ht j
  | merge _ _ ih ih' => exact hmerge ih ih'

theorem Edits.forall_expected (h : Edits src id base t t') (ht : ∀ j, Q (t.node j).expected)
    (j : Nat) : Q (t'.node j).expected := by
  induction h generalizing j with
  | refl => exact ht j
  | tail _ hedit ih =>
    obtain ⟨e, he, hexpected⟩ := hedit.expected j
    rw [hexpected]
    exact hmerge (ih j) (he.induct hempty hplace hmerge ih)

end Expected

end Tree

/-- The node comes to expect at most one name more, at the place of an offset. -/
def Node.Adds (src : Source) (n m : Node) : Prop :=
  m.expected = n.expected ∨
    ∃ offset name, m.expected = n.expected.merge (.single (src.position offset) name)

theorem Node.adds_missed (src : Source) (c : Call) (n : Node) : n.Adds src (n.missed src c) := by
  unfold missed
  split
  · split
    · exact .inl rfl
    · next name _ _ => exact .inr ⟨n.point, name, rfl⟩
  · exact .inl rfl

def Terminal.Adds (src : Source) (f : Terminal) : Prop := ∀ n : Node, n.Adds src (f n).2

theorem Expr.Own.adds {src : Source} {e : Expr} {f : Terminal} (h : e.Own src f) : f.Adds src := by
  obtain hspares | ⟨name, -, rfl⟩ := h.spares_or (g := Node.expected) fun _ _ _ => rfl
  · exact fun n => .inl (hspares n)
  · exact fun n => .inr ⟨n.point, name, rfl⟩

namespace RunState

/-- The state is reached from the table `t` by edits of work on a node of `t`. -/
structure Edited (src : Source) (id : Nat) (t : Tree) (s : RunState) : Prop where
  lt_size : id < t.size
  edits : t.Edits src id t.size s.tree

namespace Edited

variable {src : Source} {id : Nat} {t : Tree} {s s' : RunState}

theorem refl (src : Source) (hid : id < s.tree.size) : s.Edited src id s.tree := ⟨hid, .refl⟩

theorem lt (h : s.Edited src id t) : id < s.tree.size :=
  Nat.lt_of_lt_of_le h.lt_size (Tree.Edits.size_le h.edits)

theorem congr (h : s.Edited src id t) (htree : s'.tree = s.tree) : s'.Edited src id t where
  lt_size := h.lt_size
  edits := by
    rw [htree]
    exact h.edits

theorem change (h : s.Edited src id t) {f : Node → Node} {e : Expectations}
    (horigin : (s.node id).SameOrigin (f (s.node id)))
    (hexpected : (f (s.node id)).expected = (s.node id).expected.merge e)
    (he : s.tree.Gathered src e) : (s.modify id f).Edited src id t where
  lt_size := h.lt_size
  edits := h.edits.tail (.change (.inl rfl) h.lt horigin hexpected he)

theorem adds (h : s.Edited src id t) {f : Node → Node}
    (horigin : (s.node id).SameOrigin (f (s.node id)))
    (hadds : (s.node id).Adds src (f (s.node id))) : (s.modify id f).Edited src id t := by
  rcases hadds with hsame | ⟨offset, name, hadd⟩
  · exact h.change horigin (hsame.trans (Expectations.merge_empty _).symm) .empty
  · exact h.change horigin hadd (.place offset name)

theorem moveTo (h : s.Edited src id t) (point : Nat) : (s.moveTo id point).Edited src id t :=
  h.adds ⟨rfl, rfl, rfl, rfl, rfl, rfl, rfl⟩ (.inl rfl)

theorem keepChildren (h : s.Edited src id t) (base : Nat) :
    (s.keepChildren id base).Edited src id t :=
  h.adds ⟨rfl, rfl, rfl, rfl, rfl, rfl, rfl⟩ (.inl rfl)

theorem addChildren (h : s.Edited src id t) (ids : List NodeId) :
    (s.addChildren id ids).Edited src id t :=
  h.adds ⟨rfl, rfl, rfl, rfl, rfl, rfl, rfl⟩ (.inl rfl)

theorem addExpected (h : s.Edited src id t) {e : Expectations} (he : s.tree.Gathered src e) :
    (s.addExpected id e).Edited src id t :=
  h.change ⟨rfl, rfl, rfl, rfl, rfl, rfl, rfl⟩ rfl he

theorem grow (h : s.Edited src id t) (ctx : Context) (name : String) (role : Role) :
    (s.grow ctx id name role).Edited src id t := by
  let child := Node.fresh name (some id) role (ctx.rules.rule? name).isSome (s.cursor id)
  have hpush : ({ s with
      tree := s.tree.push child
      counters := { s.counters with nodesCreated := s.counters.nodesCreated + 1 } } :
        RunState).Edited src id t :=
    ⟨h.lt_size, h.edits.tail (.push (.inl rfl) h.lt rfl rfl)⟩
  exact hpush.addChildren _

theorem below (h : s.Edited src id t) {child : Nat} (hchild : t.size ≤ child)
    (h' : s'.Edited src child s.tree) : s'.Edited src id t where
  lt_size := h.lt_size
  edits := h.edits.trans (Relation.ReflTransGen.mono
    (fun _ _ => Tree.Edit.weaken hchild (Tree.Edits.size_le h.edits)) _ _ h'.edits)

end Edited

theorem gathered_expectedOf (src : Source) (s : RunState) (ids : List NodeId) :
    s.tree.Gathered src (s.expectedOf ids) :=
  .foldl (Tree.gathered_expected src s.tree) .empty

end RunState

namespace Step

/-- The step edits the table in its place: from wherever work on the node began. -/
def Edits (src : Source) (id : Nat) (r : Step) : Prop := ∀ t, Keeps (RunState.Edited src id t) r

section Edits

variable {src : Source} {id : Nat} {r : Step} {rs : List Step} {t : Tree} {s : RunState}

theorem edits_own {f : Terminal} (hkeeps : f.Keeps) (hadds : f.Adds src) :
    Edits src id (own id f) :=
  fun _ s h => h.adds (hkeeps (s.node id)).1 (hadds (s.node id))

theorem edits_ifElse {yes no : Step} (h : Edits src id r) (hyes : Edits src id yes)
    (hno : Edits src id no) : Edits src id (ifElse r yes no) :=
  fun t => keeps_ifElse (h t) (hyes t) (hno t)

theorem edits_all (h : ∀ r ∈ rs, Edits src id r) : Edits src id (all rs) :=
  fun t => keeps_all fun r hr => h r hr t

theorem edits_any (h : ∀ r ∈ rs, Edits src id r) : Edits src id (any rs) :=
  fun t => keeps_any fun r hr => h r hr t

theorem edits_sequence (h : ∀ r ∈ rs, Edits src id r) : Edits src id (sequence id rs) :=
  fun t => keeps_sequence (fun _ _ _ hs => hs.moveTo _) fun r hr => h r hr t

theorem edited_settle (point : Nat) (ts : List (Trial NodeId)) (hs : s.Edited src id t) :
    (settle id point (ts, s)).2.Edited src id t := by
  have hmoved := hs.moveTo point
  simp only [settle]
  split
  · exact hmoved
  split
  · refine (RunState.Edited.addChildren ?_ _).moveTo _
    exact hmoved.congr rfl
  · exact hmoved.addExpected (RunState.gathered_expectedOf src _ _)

theorem edits_alternation (h : ∀ r ∈ rs, Edits src id r) :
    Edits src id (alternation id rs) := by
  intro t s hs
  have hnoted : s.noteAlternation.Edited src id t := hs.congr rfl
  exact edited_settle (s.cursor id) _ (keeps_trials (fun _ hs => hs.moveTo _)
    (fun _ hs => hs.keepChildren _) (fun r hr => h r hr t) hnoted)

theorem edited_takeBack (point base : Nat) (hs : s.Edited src id t) :
    (takeBack id point base s).Edited src id t := by
  have hkept := hs.keepChildren base
  have hgathered : (s.keepChildren id base).tree.Gathered src
      (s.expectedOf (s.childrenFrom id base)) :=
    (RunState.gathered_expectedOf src s _).congr (Tree.apply_node_modify Node.expected rfl)
  exact (hkept.addExpected hgathered).moveTo point

theorem edited_turns (h : Edits src id r) (fuel count : Nat) (hs : s.Edited src id t) :
    (turns id r fuel count s).2.Edited src id t :=
  keeps_turns (fun point base _ hs => edited_takeBack point base hs) (h t) fuel count hs

theorem edits_call (ctx : Context) {run : NodeId → Step} (c : Call)
    (h : ∀ child, Edits ctx.source child (run child)) :
    Edits ctx.source id (call ctx run id c) := by
  intro t s hs
  have hgrown := hs.grow ctx c.rule c.role
  have hlt : s.tree.size < (s.grow ctx id c.rule c.role).tree.size := by
    rw [RunState.size_grow]
    exact Nat.lt_succ_self _
  have hchild := RunState.Edited.refl ctx.source hlt
  have hwork : (run s.tree.size (s.grow ctx id c.rule c.role)).2.Edited ctx.source id t :=
    hgrown.below (Tree.Edits.size_le hs.edits) (h _ _ _ hchild)
  unfold call
  cases hcall : run s.tree.size (s.grow ctx id c.rule c.role) with
  | mk ok s' =>
    rw [hcall] at hwork
    cases ok with
    | true => exact hwork.moveTo _
    | false =>
      exact hwork.adds (Node.keeps_missed ctx.source c _).1 (Node.adds_missed ctx.source c _)

end Edits

end Step

theorem Expr.edits_step (ctx : Context) {run : NodeId → Step} (id : Nat)
    (h : ∀ child, Step.Edits ctx.source child (run child)) (e : Expr) :
    Step.Edits ctx.source id (e.step ctx run id) := by
  induction e using Expr.induct ctx.source with
  | call c =>
    rw [c.step_body]
    exact Step.edits_call ctx c h
  | seq es ih => exact Step.edits_sequence (forall_mem_steps ih)
  | alt es ih => exact Step.edits_alternation (forall_mem_steps ih)
  | many e ih => exact fun _ _ hs => Step.edited_turns ih _ 0 hs
  | tally e least ih =>
    intro t s hs
    exact (Step.edited_turns ih (ctx.source.size - s.cursor id + 1) 0 hs).congr rfl
  | counted e test ih =>
    exact fun _ s hs => Step.edited_turns ih (ctx.source.size - s.cursor id + 1) 0 hs
  | own hown =>
    rw [hown.step_eq]
    exact Step.edits_own hown.keeps hown.adds
  | probe label => exact fun _ _ hs => hs.congr rfl
  | not e ih => exact ih
  | all es ih => exact Step.edits_all (forall_mem_steps ih)
  | any es ih => exact Step.edits_any (forall_mem_steps ih)
  | ifElse e yes no ihe ihyes ihno => exact Step.edits_ifElse ihe ihyes ihno
  | const ok => exact fun _ _ hs => hs

namespace Context

/-- An attempt, to whatever end it comes, is a run of edits on its node and below it. -/
theorem edits_attempt (ctx : Context) (left : Nat) (id : Nat) :
    Step.Edits ctx.source id (ctx.attempt left id) := by
  induction left generalizing id with
  | zero => exact fun t => keeps_attempt_zero fun hs => hs.congr
  | succ left ih =>
    exact fun t => keeps_attempt_succ (fun hs => hs.congr)
      (fun _ hs => hs.adds ⟨rfl, rfl, rfl, rfl, rfl, rfl, rfl⟩ (.inl rfl))
      fun _ body _ => Expr.edits_step ctx id ih body t

/-- An attempt touches its own node and what it makes below it only, whatever state it begins in and
to whatever end it comes. It leaves all that was fixed when its node was made, and the node expects
what it expected before, and perhaps more. So when the attempt at a new child is over, the node that
called is as it was when the child was made. -/
theorem attempt_confined (ctx : Context) (left : Nat) {id : Nat} {s : RunState}
    (hid : id < s.tree.size) :
    s.tree.Confined id (ctx.attempt left id s).2.tree ∧
    ∀ c : Call, (ctx.attempt left s.tree.size (s.grow ctx id c.rule c.role)).2.node id =
      { s.node id with children := (s.node id).children ++ [s.tree.size] } := by
  have hconfined : ∀ {n : Nat} {u : RunState}, n < u.tree.size →
      u.tree.Confined n (ctx.attempt left n u).2.tree := fun hn =>
    Tree.Edits.confined hn (edits_attempt ctx left _ _ _ (.refl ctx.source hn)).edits
  refine ⟨hconfined hid, fun c => ?_⟩
  have hsize := s.size_grow ctx id c.rule c.role
  have hchild := hconfined (n := s.tree.size) (u := s.grow ctx id c.rule c.role) (by omega)
  exact (hchild.node_eq id (by omega) (Nat.ne_of_lt hid)).trans (Step.node_grow_self ctx c hid)

def shallow : Context where
  source := .ofString "a"
  rules := .merge .empty .empty (.ofList [("ROOT", .ref "A"), ("A", .byte (.single 97))])
  limit := 1

/-- The attempt at the root fails at its child, which is nested too deeply, and is confined to the
root and that child all the same. -/
theorem attempt_confined_shallow :
    let s := RunState.start shallow "ROOT"
    0 < s.tree.size ∧ (shallow.attempt 1 0 s).2.fault = some ⟨1, "A"⟩ ∧
    (shallow.attempt 1 0 s).2.tree.size = 2 ∧
    s.tree.Confined 0 (shallow.attempt 1 0 s).2.tree ∧
    (shallow.attempt 1 1 (s.grow shallow 0 "A" .plain)).2.node 0 =
      { s.node 0 with children := [1] } := by
  have hroot : 0 < (RunState.start shallow "ROOT").tree.size := by decide +kernel
  obtain ⟨hconfined, hcaller⟩ := shallow.attempt_confined 1 hroot
  exact ⟨hroot, by decide +kernel, by decide +kernel, hconfined, hcaller (.ref "A")⟩

end Context

end RankedGrammar
