import RankedGrammar.Proofs.Match.Simulation

/-!
The calls of a run. At work on a node, the body of a rule comes to run other rules on new nodes, from
the states that the parts of the body before them have led to. Whatever came before it, a call finds
nothing on its node but what the caller asked for.
-/
namespace RankedGrammar

/-- At work on the node `id` from the first state on, the body comes to run the rule of a node in
the second. -/
inductive Expr.Invokes (ctx : Context) (run : NodeId → Step) (id : NodeId) :
    Expr → RunState → NodeId → RunState → Prop where
  | ref (rule : String) (s : RunState) :
      Invokes ctx run id (.ref rule) s s.tree.size (s.grow ctx id rule .plain)
  | named (rule caption : String) (s : RunState) :
      Invokes ctx run id (.named rule caption) s s.tree.size (s.grow ctx id rule (.wrapper caption))
  | lit (t : String) (s : RunState) :
      Invokes ctx run id (.lit t) s s.tree.size (s.grow ctx id literalName (.literal t))
  | seq {pre post : List Expr} {e : Expr} {s s₁ s' : RunState} {child : NodeId}
      (before : Step.all (Expr.steps ctx run id pre) s = (true, s₁))
      (call : Invokes ctx run id e s₁ child s') :
      Invokes ctx run id (.seq (pre ++ e :: post)) s child s'
  | all {pre post : List Expr} {e : Expr} {s s₁ s' : RunState} {child : NodeId}
      (before : Step.all (Expr.steps ctx run id pre) s = (true, s₁))
      (call : Invokes ctx run id e s₁ child s') :
      Invokes ctx run id (.all (pre ++ e :: post)) s child s'
  | any {pre post : List Expr} {e : Expr} {s s₁ s' : RunState} {child : NodeId}
      (before : Step.any (Expr.steps ctx run id pre) s = (false, s₁))
      (call : Invokes ctx run id e s₁ child s') :
      Invokes ctx run id (.any (pre ++ e :: post)) s child s'
  | alt {pre post : List Expr} {e : Expr} {s s₁ s' : RunState} {child : NodeId}
      (before : (Step.trials id (s.cursor id) (s.node id).children.length
        (Expr.steps ctx run id pre) s.noteAlternation).2 = s₁)
      (call : Invokes ctx run id e (s₁.moveTo id (s.cursor id)) child s') :
      Invokes ctx run id (.alt (pre ++ e :: post)) s child s'
  | many {e : Expr} {s s' : RunState} {child : NodeId} (call : Invokes ctx run id e s child s') :
      Invokes ctx run id (.many e) s child s'
  | turn {e : Expr} {s s₁ s' : RunState} {child : NodeId}
      (before : e.step ctx run id s = (true, s₁)) (advanced : s.cursor id < s₁.cursor id)
      (call : Invokes ctx run id (.many e) s₁ child s') :
      Invokes ctx run id (.many e) s child s'
  | tally {e : Expr} {least : Nat} {s s' : RunState} {child : NodeId}
      (call : Invokes ctx run id (.many e) s child s') :
      Invokes ctx run id (.tally e least) s child s'
  | counted {e : Expr} {test : Nat → Bool} {s s' : RunState} {child : NodeId}
      (call : Invokes ctx run id (.many e) s child s') :
      Invokes ctx run id (.counted e test) s child s'
  | not {e : Expr} {s s' : RunState} {child : NodeId} (call : Invokes ctx run id e s child s') :
      Invokes ctx run id (.not e) s child s'
  | test {e yes no : Expr} {s s' : RunState} {child : NodeId}
      (call : Invokes ctx run id e s child s') : Invokes ctx run id (.ifElse e yes no) s child s'
  | yes {e yes no : Expr} {s s₁ s' : RunState} {child : NodeId}
      (before : e.step ctx run id s = (true, s₁)) (call : Invokes ctx run id yes s₁ child s') :
      Invokes ctx run id (.ifElse e yes no) s child s'
  | no {e yes no : Expr} {s s₁ s' : RunState} {child : NodeId}
      (before : e.step ctx run id s = (false, s₁)) (call : Invokes ctx run id no s₁ child s') :
      Invokes ctx run id (.ifElse e yes no) s child s'

/-- The run of a rule over the source comes to run the rule of the node `id` in the state `s` with
`left` levels to go. -/
inductive Context.Calls (ctx : Context) (rule : String) : Nat → NodeId → RunState → Prop where
  | root : Calls ctx rule ctx.limit Tree.root (.start ctx rule)
  | nested {left : Nat} {id child : NodeId} {s s' : RunState} {body : Expr}
      (caller : Calls ctx rule (left + 1) id s) (fault : s.fault = none)
      (found : ctx.rules.rule? (s.node id).name = some body)
      (call : body.Invokes ctx (ctx.attempt left) id (s.enter id (ctx.limit - left)) child s') :
      Calls ctx rule left child s'

/-- After work on the node `id` from the first state on, a new child of it has led to the second. -/
def RunState.Spawns (ctx : Context) (id : NodeId) (s : RunState) (child : NodeId) (s' : RunState) :
    Prop :=
  ∃ (c : Call) (s₁ : RunState), s.Extends id s₁ ∧ child = s₁.tree.size ∧
    s' = s₁.grow ctx id c.rule c.role

namespace RunState.Spawns

variable {ctx : Context} {id child : Nat} {s s₁ s' : RunState}

theorem now (c : Call) (hs : s.tree.WellFormed) :
    s.Spawns ctx id s.tree.size (s.grow ctx id c.rule c.role) :=
  ⟨c, s, .refl hs, rfl, rfl⟩

theorem after (hid : id < s.tree.size) (hext : s.Extends id s₁)
    (h : s₁.tree.WellFormed → id < s₁.tree.size → s₁.Spawns ctx id child s') :
    s.Spawns ctx id child s' := by
  have hid₁ := Nat.lt_of_lt_of_le hid hext.size_le
  obtain ⟨c, s₂, hext', hchild, hs'⟩ := h hext.wellFormed hid₁
  exact ⟨c, s₂, hext.trans hid hext', hchild, hs'⟩

/-- The new child is well placed, whether the run is spoilt or not. -/
theorem wellFormed (h : s.Spawns ctx id child s') (hid : id < s.tree.size) :
    s'.tree.WellFormed ∧ child < s'.tree.size := by
  obtain ⟨c, s₁, hext, rfl, rfl⟩ := h
  have hid₁ := Nat.lt_of_lt_of_le hid hext.size_le
  refine ⟨(Step.extends_grow ctx c.rule c.role hext.wellFormed hid₁).wellFormed, ?_⟩
  rw [RunState.size_grow]
  exact Nat.lt_succ_self _

theorem shows (h : s.Spawns ctx id child s') (hid : id < s.tree.size) (hfault : s'.fault = none) :
    ∃ c start, s'.Shows child (Growth.seed ctx c start) := by
  obtain ⟨c, s₁, hext, rfl, rfl⟩ := h
  have hs₁ : s₁.Shows id (s₁.tree.sprout id) :=
    ⟨hext.wellFormed, Nat.lt_of_lt_of_le hid hext.size_le, hfault, rfl⟩
  exact ⟨c, _, Step.shows_grow ctx c hs₁⟩

end RunState.Spawns

theorem Expr.Invokes.spawns {ctx : Context} {run : NodeId → Step} {id child : Nat} {e : Expr}
    {s s' : RunState} (hrun : ∀ child, Step.Local child (run child))
    (h : e.Invokes ctx run id s child s') (hs : s.tree.WellFormed) (hid : id < s.tree.size) :
    s.Spawns ctx id child s' := by
  induction h with
  | ref rule s => exact .now (.ref rule) hs
  | named rule caption s => exact .now (.named rule caption) hs
  | lit t s => exact .now (.lit t) hs
  | @seq pre post e s s₁ s' child before _ ih =>
    have hext := Step.local_all (Expr.local_steps ctx id hrun pre) s hs hid
    rw [before] at hext
    exact .after hid hext ih
  | @all pre post e s s₁ s' child before _ ih =>
    have hext := Step.local_all (Expr.local_steps ctx id hrun pre) s hs hid
    rw [before] at hext
    exact .after hid hext ih
  | @any pre post e s s₁ s' child before _ ih =>
    have hext := Step.local_any (Expr.local_steps ctx id hrun pre) s hs hid
    rw [before] at hext
    exact .after hid hext ih
  | @alt pre post e s s₁ s' child before _ ih =>
    have hnoted : s.Extends id s.noteAlternation := (RunState.Extends.refl hs).congr rfl rfl
    obtain ⟨hext, -, -⟩ := Step.trials_spec (Expr.local_steps ctx id hrun pre) (s.cursor id)
      hnoted.wellFormed hid (rfl : _ = (s.noteAlternation.node id).children.length)
    rw [show (Step.trials id (s.cursor id) (s.noteAlternation.node id).children.length
      (Expr.steps ctx run id pre) s.noteAlternation).2 = s₁ from before] at hext
    exact .after hid ((hnoted.trans hid hext).moveTo hid (s.cursor id)) ih
  | many _ ih => exact ih hs hid
  | @turn e s s₁ s' child before _ _ ih =>
    have hext := Expr.local_step ctx id hrun e s hs hid
    rw [before] at hext
    exact .after hid hext ih
  | tally _ ih => exact ih hs hid
  | counted _ ih => exact ih hs hid
  | not _ ih => exact ih hs hid
  | test _ ih => exact ih hs hid
  | @yes e yes no s s₁ s' child before _ ih | @no e yes no s s₁ s' child before _ ih =>
    have hext := Expr.local_step ctx id hrun e s hs hid
    rw [before] at hext
    exact .after hid hext ih

namespace Context.Calls

variable {ctx : Context} {rule : String} {left : Nat} {id : Nat} {s : RunState}

theorem wellFormed (h : ctx.Calls rule left id s) : s.tree.WellFormed ∧ id < s.tree.size := by
  induction h with
  | root => exact ⟨wellFormed_start ctx rule, Nat.one_pos⟩
  | nested _ _ _ call ih =>
    exact (call.spawns (local_attempt ctx _) ih.1 ih.2).wellFormed ih.2

theorem shows (h : ctx.Calls rule left id s) (hfault : s.fault = none) :
    ∃ c start, s.Shows id (Growth.seed ctx c start) := by
  cases h with
  | root => exact ⟨.ref rule, 0, shows_start ctx rule⟩
  | nested caller _ _ call =>
    obtain ⟨hwf, hlt⟩ := caller.wellFormed
    exact (call.spawns (local_attempt ctx _) hwf hlt).shows hlt hfault

/-- What a call finds on its node is told from the name, the role and the place of the node. -/
theorem shows_fresh (h : ctx.Calls rule left id s) (hfault : s.fault = none) :
    s.Shows id (.mk (.fresh (s.node id).name none (s.node id).role
      (ctx.rules.rule? (s.node id).name).isSome (s.node id).start) []) := by
  obtain ⟨c, start, hshows⟩ := h.shows hfault
  have hlabel : Node.fresh c.rule none c.role (ctx.rules.rule? c.rule).isSome start =
      (s.node id).bare := hshows.label
  have hname : c.rule = (s.node id).name := congrArg Node.name hlabel
  have hrole : c.role = (s.node id).role := congrArg Node.role hlabel
  have hstart : start = (s.node id).start := congrArg Node.start hlabel
  rw [← hname, ← hrole, ← hstart]
  exact hshows

end Context.Calls

end RankedGrammar
