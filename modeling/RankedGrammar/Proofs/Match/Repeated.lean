import Mathlib.Logic.Function.Iterate
import RankedGrammar.Proofs.Match.Adopted
import RankedGrammar.Proofs.Match.Termination

/-!
How far a repetition goes. It runs its body again and again, each time where the last run ended,
until a run fails or does not advance, and that run it takes back. Every run goes as it would on the
node as it was before the repetition, since the runs before it leave behind nothing that it heeds.
-/
namespace RankedGrammar

namespace Step

/-- The state after so many runs of a step, one after the other. -/
def runs (r : Step) (count : Nat) (s : RunState) : RunState := (fun s => (r s).2)^[count] s

def Advances (id : NodeId) (r : Step) (s : RunState) : Prop :=
  (r s).1 = true ∧ s.cursor id < (r s).2.cursor id

/-- The children that the run from a state adds. -/
def added (id : NodeId) (r : Step) (s : RunState) : List NodeId :=
  (r s).2.childrenFrom id (s.node id).children.length

variable {src : Source} {id : Nat} {r : Step} {g : Growth} {s t : RunState}

@[simp] theorem runs_zero (r : Step) (s : RunState) : runs r 0 s = s := rfl

theorem runs_succ (r : Step) (count : Nat) (s : RunState) :
    runs r (count + 1) s = (r (runs r count s)).2 :=
  Function.iterate_succ_apply' _ _ _

theorem runs_succ' (r : Step) (count : Nat) (s : RunState) :
    runs r (count + 1) s = runs r count (r s).2 :=
  Function.iterate_succ_apply _ _ _

/-- A repetition counts the runs that advance and takes back the one after them. -/
theorem Repeats.eq_runs {turns count : Nat} {out : Nat × RunState}
    (h : Repeats id r turns count s out) :
    ∃ n, turns = n + 1 ∧ (∀ k < n, Advances id r (runs r k s)) ∧ ¬ Advances id r (runs r n s) ∧
      out = (count + n, takeBack id ((runs r n s).cursor id)
        ((runs r n s).node id).children.length (runs r (n + 1) s)) := by
  induction h with
  | last hoff => exact ⟨0, rfl, by simp, hoff, rfl⟩
  | @turn turns count s out hok hon _ ih =>
    obtain ⟨n, rfl, hturns, hlast, rfl⟩ := ih
    refine ⟨n + 1, rfl, fun k hk => ?_, by rwa [runs_succ'], ?_⟩
    · cases k with
      | zero => exact ⟨hok, hon⟩
      | succ k =>
        rw [runs_succ']
        exact hturns k (by omega)
    · rw [← runs_succ', ← runs_succ']
      congr 1
      omega

theorem iterate_eq_runs {ctx : Context} (h : Keeps (RunState.AtWork ctx.source id) r)
    (hs : s.AtWork ctx.source id) :
    ∃ n, (∀ k < n, Advances id r (runs r k s)) ∧ ¬ Advances id r (runs r n s) ∧
      iterate ctx id r s = (n, takeBack id ((runs r n s).cursor id)
        ((runs r n s).node id).children.length (runs r (n + 1) s)) := by
  obtain ⟨turns, -, hrepeats⟩ := repeats_turns h 0 hs (Nat.lt_succ_self _)
  obtain ⟨n, -, hturns, hlast, hout⟩ := hrepeats.eq_runs
  rw [Nat.zero_add] at hout
  exact ⟨n, hturns, hlast, hout⟩

section Runs

variable (h : Local id r) (hs : s.tree.WellFormed) (hid : id < s.tree.size)
include h hs hid

theorem runs_extends (count : Nat) : s.Extends id (runs r count s) := by
  induction count with
  | zero => exact .refl hs
  | succ count ih =>
    rw [runs_succ]
    exact ih.trans hid (h _ ih.wellFormed (Nat.lt_of_lt_of_le hid ih.size_le))

theorem run_extends (count : Nat) : (runs r count s).Extends id (runs r (count + 1) s) := by
  have hruns := runs_extends h hs hid count
  rw [runs_succ]
  exact h _ hruns.wellFormed (Nat.lt_of_lt_of_le hid hruns.size_le)

theorem children_runs (count : Nat) :
    ((runs r count s).node id).children =
      (s.node id).children ++ (List.range count).flatMap fun k => added id r (runs r k s) := by
  induction count with
  | zero => simp
  | succ count ih =>
    have hrun := ((run_extends h hs hid count).childrenFrom rfl).1
    rw [ih] at hrun
    rw [hrun, List.range_succ, List.flatMap_append, List.flatMap_singleton, List.append_assoc]
    rw [← ih, runs_succ]
    rfl

/-- What a run has added stays as it is during the runs that follow. -/
theorem sprout_runs {k count : Nat} (hlt : k < count) {s' : RunState}
    (hend : (runs r count s).Extends id s') :
    (added id r (runs r k s)).map s'.tree.sprout =
      (added id r (runs r k s)).map (r (runs r k s)).2.tree.sprout := by
  have hruns := runs_extends h hs hid (k + 1)
  have hid' := Nat.lt_of_lt_of_le hid hruns.size_le
  obtain ⟨more, rfl⟩ := Nat.exists_eq_add_of_lt hlt
  have hlater : (runs r (k + 1) s).Extends id (runs r (k + more + 1) s) := by
    have hsplit : runs r (k + more + 1) s = runs r more (runs r (k + 1) s) := by
      unfold runs
      rw [← Function.iterate_add_apply]
      congr 1
      omega
    rw [hsplit]
    exact runs_extends h hruns.wellFormed hid' more
  have hafter := hlater.trans hid' hend
  rw [runs_succ] at hruns hid' hafter
  refine List.map_congr_left fun c hc => ?_
  have hmem := List.mem_of_mem_drop hc
  exact hafter.sprout_eq hruns.wellFormed (hruns.wellFormed.lt_of_mem hmem)
    (hruns.wellFormed.lt_size hmem)

end Runs

/-- A run that is taken back leaves the node with the children and the place that it began with. -/
theorem takeBack_spec {s' : RunState} (point : Nat) (hs : s.tree.WellFormed)
    (hid : id < s.tree.size) (h : s.Extends id s') :
    let back := takeBack id point (s.node id).children.length s'
    s.Extends id back ∧ (back.node id).children = (s.node id).children ∧
      back.cursor id = point := by
  intro back
  have hid' := Nat.lt_of_lt_of_le hid h.size_le
  refine ⟨extends_takeBack point hs hid h, ?_, ?_⟩
  · refine (Tree.apply_node_modify Node.children rfl id).trans ?_
    refine (Tree.apply_node_modify Node.children rfl id).trans ?_
    exact h.children_keepChildren hid rfl
  · refine RunState.cursor_moveTo_self _ _ ?_
    rw [RunState.addExpected, RunState.size_modify, RunState.keepChildren, RunState.size_modify]
    exact hid'

/-- Work from one place at two nodes that are the same as far as rules heed them: if it goes well at
one, then at the other it has the same outcome and adds the same children. -/
theorem Simulates.same_outcome (h : Simulates id r g) (hg : g.Additive) {b b' : Sprout}
    (ht : t.Shows id b) (hs : s.Shows id b') (hplain : b.label.plain = b'.label.plain)
    (hfault : (r s).2.fault = none) :
    (r t).2.fault = none ∧ (r t).1 = (r s).1 ∧ (r t).2.cursor id = (r s).2.cursor id ∧
      (added id r t).map (r t).2.tree.sprout = (added id r s).map (r s).2.tree.sprout := by
  obtain ⟨ok, c', hrun, hok, hshows⟩ := h.exists_of_fault hs hfault
  obtain ⟨c, hrun', hgain⟩ := hg b' b hplain.symm ok c' hrun
  have hout := h.outcome t b ht
  rw [hrun'] at hout
  obtain ⟨hok', hshows'⟩ := hout
  refine ⟨hshows'.fault, hok'.trans hok.symm, ?_, ?_⟩
  · rw [← hshows'.cursor, ← hshows.cursor, hgain.cursor]
  · have hdrop := hgain.drop_branches
    rw [hs.length_branches, ht.length_branches, hshows.branches, hshows'.branches,
      ← List.map_drop, ← List.map_drop] at hdrop
    exact hdrop.symm

/-- A node that has been worked on is for rules the same as before with its cursor moved on. -/
theorem shows_moved (hs : s.tree.WellFormed) (hid : id < s.tree.size) (hfault : s.fault = none)
    (hext : s.Extends id t) (hfault' : t.fault = none) :
    ∃ b b', t.Shows id b ∧ (s.moveTo id (t.cursor id)).Shows id b' ∧
      b.label.plain = b'.label.plain := by
  have hmoved := (RunState.Extends.refl hs).moveTo hid (t.cursor id)
  have hlt : id < (s.moveTo id (t.cursor id)).tree.size :=
    Nat.lt_of_lt_of_le hid hmoved.size_le
  refine ⟨_, _, ⟨hext.wellFormed, Nat.lt_of_lt_of_le hid hext.size_le, hfault', rfl⟩,
    ⟨hmoved.wellFormed, hlt, hfault, rfl⟩, ?_⟩
  rw [hext.wellFormed.sprout_eq, hmoved.wellFormed.sprout_eq]
  have hnode : (s.moveTo id (t.cursor id)).node id = { s.node id with point := t.cursor id } :=
    RunState.node_modify_self s _ hid
  obtain ⟨hname, hparent, hrole, hresolved, hstart, hconsumed, hcount⟩ := hext.origin
  refine Node.plain_bare (n := (s.moveTo id (t.cursor id)).node id) (m := t.node id) ?_ ?_
  · rw [hnode]
    exact ⟨hname, hparent, hrole, hresolved, hstart, hconsumed, hcount⟩
  · rw [hnode]
    rfl

/-- What a repetition has come to: it has counted runs that advance, the next does not, and the node
is where the last of them ended, with the children that they added. -/
structure Exhausts (src : Source) (id : NodeId) (r : Step) (s : RunState) (out : Nat × RunState) :
    Prop where
  advances : ∀ k < out.1, Advances id r (runs r k s)
  stops : ¬ Advances id r (runs r out.1 s)
  cursor : out.2.cursor id = (runs r out.1 s).cursor id
  children : (out.2.node id).children =
    (s.node id).children ++ (List.range out.1).flatMap fun k => added id r (runs r k s)
  /-- Nothing of the last run is in reach. -/
  reaches : ∀ a n : Nat, a < (runs r out.1 s).tree.size → out.2.tree.Reaches a n →
    n < (runs r out.1 s).tree.size
  count_le : out.1 ≤ src.size - s.cursor id

theorem exhausts_iterate {ctx : Context} (h : Local id r)
    (hkeeps : Keeps (RunState.AtWork ctx.source id) r) (hs : s.AtWork ctx.source id) :
    Exhausts ctx.source id r s (iterate ctx id r s) := by
  have hcount : (iterate ctx id r s).1 ≤ 0 + (ctx.source.size - s.cursor id) :=
    turns_le hkeeps _ 0 hs
  rw [Nat.zero_add] at hcount
  obtain ⟨n, hturns, hlast, hout⟩ := iterate_eq_runs hkeeps hs
  have hruns := runs_extends h hs.wellFormed hs.lt_size n
  have hrun := run_extends h hs.wellFormed hs.lt_size n
  obtain ⟨hback, hchildren, hcursor⟩ := takeBack_spec ((runs r n s).cursor id) hruns.wellFormed
    (Nat.lt_of_lt_of_le hs.lt_size hruns.size_le) hrun
  rw [hout] at hcount ⊢
  refine ⟨hturns, hlast, hcursor, ?_, fun a m ha hreach => ?_, hcount⟩
  · exact hchildren.trans (children_runs h hs.wellFormed hs.lt_size n)
  · exact hback.lt_of_reaches hruns.wellFormed hchildren ha hreach

/-- The repetition goes well if and only if its runs do where they are made alone. -/
theorem fault_runs (h : Simulates id r g) (hg : g.Additive) (hs : s.tree.WellFormed)
    (hid : id < s.tree.size) (count : Nat) :
    (runs r count s).fault = none ↔ s.fault = none ∧
      ∀ k < count, (r (s.moveTo id ((runs r k s).cursor id))).2.fault = none := by
  induction count with
  | zero => simp
  | succ count ih =>
    have hruns := runs_extends h.local_step hs hid count
    have hrun := run_extends h.local_step hs hid count
    constructor
    · intro hgood
      have hbefore := hrun.fault_eq_none hgood
      obtain ⟨hfault, halone⟩ := ih.1 hbefore
      refine ⟨hfault, fun k hk => ?_⟩
      obtain hlt | rfl := Nat.lt_succ_iff_lt_or_eq.1 hk
      · exact halone k hlt
      · obtain ⟨b, b', hb, hb', hplain⟩ := shows_moved hs hid hfault hruns hbefore
        rw [runs_succ] at hgood
        exact (h.same_outcome hg hb' hb hplain.symm hgood).1
    · rintro ⟨hfault, halone⟩
      have hbefore := ih.2 ⟨hfault, fun k hk => halone k (Nat.lt_succ_of_lt hk)⟩
      obtain ⟨b, b', hb, hb', hplain⟩ := shows_moved hs hid hfault hruns hbefore
      rw [runs_succ]
      exact (h.same_outcome hg hb hb' hplain (halone count (Nat.lt_succ_self _))).1

end Step

namespace Context
open Step (runs added Exhausts)

/-- A repetition is maximal and is taken back exactly. It counts the runs of its body that succeed
and advance, each from where the one before it ended, up to one that does not; of that one nothing
is left in reach, and the node has the children that the counted runs added. The runs go as they do
on the node as it was at first, with nothing changed but its cursor, and the repetition goes well if
and only if those runs do. -/
theorem iterate_maximal (ctx : Context) (left id : Nat) (e : Expr) (s : RunState)
    (hs : s.AtWork ctx.source id) :
    let r := e.step ctx (ctx.attempt left) id
    let out := Step.iterate ctx id r s
    let alone := fun k => s.moveTo id ((runs r k s).cursor id)
    Exhausts ctx.source id r s out ∧
    (out.2.fault = none ↔ s.fault = none ∧ ∀ k ≤ out.1, (r (alone k)).2.fault = none) ∧
    (out.2.fault = none → ∀ k ≤ out.1, (r (runs r k s)).1 = (r (alone k)).1 ∧
      (runs r (k + 1) s).cursor id = (r (alone k)).2.cursor id ∧
      (k < out.1 → (added id r (runs r k s)).map out.2.tree.sprout =
        (added id r (alone k)).map (r (alone k)).2.tree.sprout)) := by
  intro r out alone
  have hkeeps : Step.Keeps (RunState.AtWork ctx.source id) r := atWork_step ctx left id e
  have hsimulates : Step.Simulates id r (e.growth ctx (ctx.grow left)) :=
    Expr.simulates_step ctx id (fun child => simulates_attempt ctx left child) e
  have hadditive := Expr.additive_growth ctx (ctx.grow left) e
  have hwf := hs.wellFormed
  have hid := hs.lt_size
  obtain ⟨n, -, -, hout⟩ := Step.iterate_eq_runs hkeeps hs
  have hexhausts : Exhausts ctx.source id r s out :=
    Step.exhausts_iterate hsimulates.local_step hkeeps hs
  have hcount : out.1 = n := congrArg Prod.fst hout
  -- taking back the last run leaves its fault
  have hfault : out.2.fault = (runs r (out.1 + 1) s).fault := by
    rw [hcount]
    exact congrArg (fun o : Nat × RunState => o.2.fault) hout
  have hback : (runs r out.1 s).Extends id out.2 := by
    have hruns := Step.runs_extends hsimulates.local_step hwf hid n
    have hrun := Step.run_extends hsimulates.local_step hwf hid n
    rw [hcount, congrArg Prod.snd hout]
    exact Step.extends_takeBack _ hruns.wellFormed (Nat.lt_of_lt_of_le hid hruns.size_le) hrun
  have hgood : out.2.fault = none ↔ s.fault = none ∧ ∀ k ≤ out.1, (r (alone k)).2.fault = none := by
    rw [hfault, Step.fault_runs hsimulates hadditive hwf hid]
    simp only [Nat.lt_succ_iff, alone]
  refine ⟨hexhausts, hgood, fun hnone k hk => ?_⟩
  obtain ⟨hstart, halone⟩ := hgood.1 hnone
  have hruns := Step.runs_extends hsimulates.local_step hwf hid k
  have hbefore : (runs r k s).fault = none :=
    (Step.fault_runs hsimulates hadditive hwf hid k).2
      ⟨hstart, fun j hj => halone j (Nat.le_of_lt (Nat.lt_of_lt_of_le hj hk))⟩
  obtain ⟨b, b', hb, hb', hplain⟩ := Step.shows_moved hwf hid hstart hruns hbefore
  obtain ⟨-, hok, hcursor, hadded⟩ := hsimulates.same_outcome hadditive hb hb' hplain (halone k hk)
  refine ⟨hok, by rw [Step.runs_succ]; exact hcursor, fun hlt => ?_⟩
  rw [Step.sprout_runs hsimulates.local_step hwf hid hlt hback]
  exact hadded

/-- A rule for a letter, and one that takes pairs of it. -/
def pairs : Context where
  source := .ofString "aaab"
  rules := .merge .empty .empty (.ofList [
    ("ROOT", .many (.all [.ref "A", .ref "A"])), ("A", .byte (.single 97))])

/-- Three letters make one pair. The second run takes the last of them, makes two children and fails
beyond it; then the cursor is behind the pair, and the children are those of the pair. -/
theorem iterate_maximal_pairs :
    let r := (Expr.all [.ref "A", .ref "A"]).step pairs (pairs.attempt 8) Tree.root
    let s := RunState.start pairs "ROOT"
    let out := Step.iterate pairs Tree.root r s
    s.AtWork pairs.source Tree.root ∧ Exhausts pairs.source Tree.root r s out ∧
      out.1 = 1 ∧ (runs r 2 s).cursor Tree.root = 3 ∧
      added Tree.root r (runs r 1 s) = [3, 4] ∧ out.2.cursor Tree.root = 2 ∧
      (out.2.node Tree.root).children = [1, 2] ∧ (r (s.moveTo Tree.root 2)).1 = false := by
  intro r s out
  have hwork : s.AtWork pairs.source Tree.root := atWork_start pairs "ROOT"
  obtain ⟨hexhausts, -, halone⟩ :=
    iterate_maximal pairs 8 Tree.root (.all [.ref "A", .ref "A"]) s hwork
  have hcount : out.1 = 1 := by decide +kernel
  have hpoint : (runs r 1 s).cursor Tree.root = 2 := by decide +kernel
  have hlast : (r (runs r 1 s)).1 =
      (r (s.moveTo Tree.root ((runs r 1 s).cursor Tree.root))).1 :=
    (halone (by decide +kernel) 1 (by decide +kernel)).1
  have hcursor : out.2.cursor Tree.root = (runs r out.1 s).cursor Tree.root := hexhausts.cursor
  have hchildren : (out.2.node Tree.root).children = (s.node Tree.root).children ++
      (List.range out.1).flatMap fun k => added Tree.root r (runs r k s) := hexhausts.children
  rw [hpoint] at hlast
  rw [hcount] at hcursor hchildren
  refine ⟨hwork, hexhausts, hcount, by decide +kernel, by decide +kernel, ?_, ?_, ?_⟩
  · exact hcursor.trans hpoint
  · exact hchildren.trans (by decide +kernel)
  · exact hlast.symm.trans (by decide +kernel)

end Context

end RankedGrammar
