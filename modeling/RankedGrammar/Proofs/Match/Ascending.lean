import RankedGrammar.Proofs.Match.Collapsed
import RankedGrammar.Proofs.Tree.Ascending

/-!
Runs make their nodes in depth-first order. While a step is at work on a node every new node goes
below it, and an alternation gives the node the children of one candidate in the order in which they
were made, so the table stays ascending throughout a run.
-/
namespace RankedGrammar

namespace RunState

/-- The node is in its place in a table in depth-first order, and nothing but what lies below it was
made after it. -/
structure Ready (id : Nat) (s : RunState) : Prop where
  wellFormed : s.tree.WellFormed
  lt_size : id < s.tree.size
  newest : s.tree.Newest id
  ascending : s.tree.Ascending

variable {id : Nat} {s s' : RunState}

/-- Work on the node that gives it no children. -/
theorem Ready.modify (h : s.Ready id) {f : Node → Node}
    (hparent : (f (s.node id)).parent = (s.node id).parent)
    (hchildren : (f (s.node id)).children.Sublist (s.node id).children) :
    (s.modify id f).Ready id where
  wellFormed := h.wellFormed.sublistChildren h.lt_size hparent hchildren
  lt_size := by rw [size_modify]; exact h.lt_size
  newest := by
    intro k hk hsize
    rw [size_modify] at hsize
    have hsame := Tree.apply_node_modify Node.parent hparent k
    obtain ⟨q, hq, hle⟩ := h.newest k hk hsize
    exact ⟨q, hsame.trans hq, hle⟩
  ascending := h.ascending.modify h.lt_size hparent ((h.ascending.siblings id).sublist hchildren)

theorem Ready.moveTo (h : s.Ready id) (point : Nat) : (s.moveTo id point).Ready id :=
  h.modify rfl (.refl _)

theorem Ready.addExpected (h : s.Ready id) (e : Expectations) : (s.addExpected id e).Ready id :=
  h.modify rfl (.refl _)

theorem Ready.keepChildren (h : s.Ready id) (base : Nat) : (s.keepChildren id base).Ready id :=
  h.modify rfl (List.take_sublist _ _)

theorem Ready.congr (h : s.Ready id) (htree : s'.tree = s.tree) : s'.Ready id := by
  obtain ⟨hwf, hlt, hnewest, hascending⟩ := h
  rw [← htree] at hwf hlt hnewest hascending
  exact ⟨hwf, hlt, hnewest, hascending⟩

theorem Ready.extends (h : s.Ready id) (hext : s.Extends id s') (ha : s'.tree.Ascending) :
    s'.Ready id where
  wellFormed := hext.wellFormed
  lt_size := Nat.lt_of_lt_of_le h.lt_size hext.size_le
  newest := by
    intro k hk hsize
    by_cases hlt : k < s.tree.size
    · have hsame : s'.tree.node k = s.tree.node k := hext.node_eq k hlt (Nat.ne_of_gt hk)
      rw [hsame]
      exact h.newest k hk hlt
    · obtain ⟨q, hq, hge⟩ := hext.parent_new k (Nat.not_lt.1 hlt) hsize
      have hid := h.lt_size
      exact ⟨q, hq, by omega⟩
  ascending := ha

/-- A new child is the newest node of all. -/
theorem Ready.grow (h : s.Ready id) (ctx : Context) (name : String) (role : Role) :
    (s.grow ctx id name role).Ready s.tree.size where
  wellFormed := (Step.extends_grow ctx name role h.wellFormed h.lt_size).wellFormed
  lt_size := by rw [size_grow]; exact Nat.lt_succ_self _
  newest := by
    intro k hk hsize
    rw [size_grow] at hsize
    omega
  ascending := by
    have hpush : (s.tree.push (.fresh name (some id) role (ctx.rules.rule? name).isSome
        (s.cursor id))).Ascending := h.ascending.push h.newest rfl rfl
    have hsize := s.tree.size_push (.fresh name (some id) role (ctx.rules.rule? name).isSome
      (s.cursor id))
    have hid := h.lt_size
    refine hpush.modify (by omega) rfl ?_
    rw [Tree.node_push_of_lt _ _ hid]
    show ((s.tree.node id).children ++ [(s.tree.push _).size - 1]).Pairwise (· < ·)
    rw [hsize, Nat.add_sub_cancel, List.pairwise_append]
    refine ⟨h.ascending.siblings id, List.pairwise_singleton _ _, fun a hold b hb => ?_⟩
    rw [List.mem_singleton.1 hb]
    exact h.wellFormed.lt_size hold

end RunState

namespace Step

/-- At work on a node that is ready, the step makes its nodes in depth-first order. -/
abbrev Ascends (id : Nat) : Step → Prop := Keeps (RunState.Ready id)

section Ascends

variable {id : Nat} {r : Step} {rs : List Step} {s s' : RunState}

theorem ascends_own {f : Terminal} (hf : f.Keeps) : Ascends id (own id f) := by
  intro s h
  obtain ⟨horigin, hchildren⟩ := hf (s.node id)
  refine h.modify horigin.parent ?_
  rw [hchildren]

theorem ascends_sequence (h : ∀ r ∈ rs, Ascends id r) : Ascends id (sequence id rs) :=
  keeps_sequence (fun _ _ _ hs => hs.moveTo _) h

/-- The children that each candidate made are in order. -/
theorem ready_trials (h : ∀ r ∈ rs, Ascends id r) (point base : Nat) (hs : s.Ready id) :
    (trials id point base rs s).2.Ready id ∧
      ∀ t ∈ (trials id point base rs s).1, t.children.Pairwise (· < ·) := by
  induction rs generalizing s with
  | nil => exact ⟨hs, by simp [trials]⟩
  | cons r rs ih =>
    obtain ⟨hfirst, hrest⟩ := List.forall_mem_cons.1 h
    have htried := hfirst _ (hs.moveTo point)
    obtain ⟨hend, hsorted⟩ := ih hrest (htried.keepChildren base)
    rw [trials_cons]
    refine ⟨hend, List.forall_mem_cons.2 ⟨?_, hsorted⟩⟩
    exact (htried.ascending.siblings id).sublist (List.drop_sublist _ _)

theorem ready_settle {ts : List (Trial NodeId)} (point : Nat) (hs : s.Ready id)
    (hext : s.Extends id s') (hs' : s'.Ready id)
    (hsame : (s'.node id).children = (s.node id).children) (hfits : ∀ t ∈ ts, t.Fits id s s')
    (hsorted : ∀ t ∈ ts, t.children.Pairwise (· < ·)) :
    (settle id point (ts, s')).2.Ready id := by
  have hmoved := hs'.moveTo point
  have hsettled := extends_settle point hs.wellFormed hs.lt_size hext hsame hfits
  revert hsettled
  simp only [settle]
  split
  · exact fun _ => hmoved
  split
  · next best hbest =>
    intro hsettled
    refine hs.extends hsettled ?_
    have hin := (mem_of_ranked (mem_of_heaviest hbest)).1
    have hchildren : ((s'.moveTo id point).node id).children = (s.node id).children :=
      (Tree.apply_node_modify Node.children rfl id).trans hsame
    -- the children of the candidate are newer than those that the node had
    have hadd : (((s'.moveTo id point).node id).children ++ best.trial.children).Pairwise
        (· < ·) := by
      rw [hchildren, List.pairwise_append]
      refine ⟨hs.ascending.siblings id, hsorted _ hin, fun a hold b hnew => ?_⟩
      exact Nat.lt_of_lt_of_le (hs.wellFormed.lt_size hold) ((hfits _ hin).new b hnew).1
    have hadopted : ((s'.moveTo id point).addChildren id best.trial.children).tree.Ascending :=
      hmoved.ascending.modify hmoved.lt_size rfl hadd
    have hid : id < ((s'.moveTo id point).addChildren id best.trial.children).tree.size := by
      rw [RunState.addChildren, RunState.size_modify]
      exact hmoved.lt_size
    exact hadopted.modify hid rfl (hadopted.siblings id)
  · exact fun _ => hmoved.addExpected _

theorem ascends_alternation (hlocal : ∀ r ∈ rs, Local id r) (h : ∀ r ∈ rs, Ascends id r) :
    Ascends id (alternation id rs) := by
  intro s hs
  have hnoted : s.Extends id s.noteAlternation :=
    (RunState.Extends.refl hs.wellFormed).congr rfl rfl
  obtain ⟨hext, hsame, hfits⟩ :=
    trials_spec hlocal (s.cursor id) (s := s.noteAlternation) hs.wellFormed hs.lt_size rfl
  obtain ⟨htrials, hsorted⟩ :=
    ready_trials h (s.cursor id) (s.node id).children.length (s := s.noteAlternation) (hs.congr rfl)
  exact ready_settle (s.cursor id) hs (hnoted.trans hs.lt_size hext) htrials hsame
    (fun t ht => ⟨(hfits t ht).nodup, (hfits t ht).new⟩) hsorted

theorem ready_turns (h : Ascends id r) (fuel count : Nat) (hs : s.Ready id) :
    (turns id r fuel count s).2.Ready id :=
  keeps_turns (fun _ _ _ hs => ((hs.keepChildren _).addExpected _).moveTo _) h fuel count hs

theorem ascends_call (ctx : Context) {run : NodeId → Step} (c : Call)
    (hlocal : ∀ child, Local child (run child)) (h : ∀ child, Ascends child (run child)) :
    Ascends id (call ctx run id c) := by
  intro s hs
  have hgrow := hs.grow ctx c.rule c.role
  have hrun := h s.tree.size _ hgrow
  have hwork := extends_below hs.lt_size (extends_grow ctx c.rule c.role hs.wellFormed hs.lt_size)
    (hlocal s.tree.size _ hgrow.wellFormed hgrow.lt_size)
  have hready := hs.extends hwork hrun.ascending
  unfold call
  cases hcall : run s.tree.size (s.grow ctx id c.rule c.role) with
  | mk ok s' =>
    rw [hcall] at hready
    cases ok with
    | true => exact hready.moveTo _
    | false =>
      obtain ⟨horigin, hchildren⟩ := Node.keeps_missed ctx.source c (s'.node id)
      refine hready.modify horigin.parent ?_
      rw [hchildren]

end Ascends

end Step

theorem Expr.ascends_step (ctx : Context) {run : NodeId → Step} (id : Nat)
    (hlocal : ∀ child, Step.Local child (run child))
    (h : ∀ child, Step.Ascends child (run child)) (e : Expr) :
    Step.Ascends id (e.step ctx run id) := by
  induction e using Expr.induct ctx.source with
  | call c =>
    rw [c.step_body]
    exact Step.ascends_call ctx c hlocal h
  | seq es ih => exact Step.ascends_sequence (forall_mem_steps ih)
  | alt es ih =>
    exact Step.ascends_alternation (local_steps ctx id hlocal es) (forall_mem_steps ih)
  | many e ih => exact fun _ hs => Step.ready_turns ih _ 0 hs
  | tally e least ih =>
    intro s hs
    exact (Step.ready_turns ih (ctx.source.size - s.cursor id + 1) 0 hs).congr rfl
  | counted e test ih =>
    exact fun s hs => Step.ready_turns ih (ctx.source.size - s.cursor id + 1) 0 hs
  | own hown =>
    rw [hown.step_eq]
    exact Step.ascends_own hown.keeps
  | probe label => exact fun _ hs => hs.congr rfl
  | not e ih => exact ih
  | all es ih => exact Step.keeps_all (forall_mem_steps ih)
  | any es ih => exact Step.keeps_any (forall_mem_steps ih)
  | ifElse e yes no ihe ihyes ihno => exact Step.keeps_ifElse ihe ihyes ihno
  | const ok => exact fun _ hs => hs

namespace Context

theorem ascends_attempt (ctx : Context) (left : Nat) (id : Nat) :
    Step.Ascends id (ctx.attempt left id) := by
  induction left generalizing id with
  | zero => exact keeps_attempt_zero fun hs => hs.congr
  | succ left ih =>
    exact keeps_attempt_succ (fun hs => hs.congr) (fun _ hs => hs.modify rfl (.refl _))
      fun _ body _ => Expr.ascends_step ctx id (local_attempt ctx left) ih body

variable {ctx : Context} {rule : String} {p : RawParse}

theorem ready_start (ctx : Context) (rule : String) :
    (RunState.start ctx rule).Ready Tree.root where
  wellFormed := wellFormed_start ctx rule
  lt_size := Nat.one_pos
  newest := fun _ hk hsize => absurd hsize (Nat.not_lt.2 hk)
  ascending := by
    constructor
    · intro k
      rw [apply_node_start Node.children ctx rule rfl k]
      exact .nil
    · intro q k j hj hk hkj
      rw [apply_node_start Node.parent ctx rule rfl j] at hj
      cases hj

theorem ascending_of_rawParse (h : ctx.rawParse rule = .ok p) : p.tree.Ascending := by
  obtain ⟨ok, s, hrun, -, htree⟩ := rawParse_eq_ok h
  have hend := ascends_attempt ctx ctx.limit Tree.root _ (ready_start ctx rule)
  rw [hrun] at hend
  exact htree ▸ hend.ascending

end Context

end RankedGrammar
