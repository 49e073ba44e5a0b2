import RankedGrammar.Proofs.Match.Frame

/-!
The attempts of a run, in the order in which they are made. Each one is told with the levels that it
has to go and with the state that it finds, so that what happens at an attempt, between two of them
and from one to the end can be spoken of. Between attempts a run changes its nodes' own work only.
-/
namespace RankedGrammar

structure Attempt where
  /-- How much deeper rules may be nested. -/
  left : Nat
  id : NodeId
  state : RunState

namespace Step

/-- The attempts that a step makes from a state on. -/
abbrev Trace := RunState → List Attempt

def traceIfElse (r : Step) (made yes no : Trace) : Trace := fun s =>
  made s ++ if (r s).1 then yes (r s).2 else no (r s).2

def traceAll : List (Step × Trace) → Trace
  | [], _ => []
  | (r, made) :: rs, s => made s ++ if (r s).1 then traceAll rs (r s).2 else []

def traceAny : List (Step × Trace) → Trace
  | [], _ => []
  | (r, made) :: rs, s => made s ++ if (r s).1 then [] else traceAny rs (r s).2

def traceTrials (id : NodeId) (point base : Nat) : List (Step × Trace) → Trace
  | [], _ => []
  | (r, made) :: rs, s =>
    made (s.moveTo id point) ++
      traceTrials id point base rs ((r (s.moveTo id point)).2.keepChildren id base)

def traceTurns (id : NodeId) (r : Step) (made : Trace) : Nat → Trace
  | 0, _ => []
  | fuel + 1, s =>
    made s ++
      if (r s).1 && s.cursor id < (r s).2.cursor id then traceTurns id r made fuel (r s).2 else []

def traceCall (ctx : Context) (made : NodeId → Trace) (id : NodeId) (c : Call) : Trace :=
  fun s => made s.tree.size (s.grow ctx id c.rule c.role)

end Step

mutual

/-- The attempts of a body, given those of the rules that it calls. -/
def Expr.trace (ctx : Context) (run : NodeId → Step) (made : NodeId → Step.Trace) (id : NodeId) :
    Expr → Step.Trace
  | .ref rule => Step.traceCall ctx made id (.ref rule)
  | .named rule caption => Step.traceCall ctx made id (.named rule caption)
  | .lit t => Step.traceCall ctx made id (.lit t)
  | .seq es => Step.traceAll (Expr.traces ctx run made id es)
  | .alt es => fun s =>
    Step.traceTrials id (s.cursor id) (s.node id).children.length (Expr.traces ctx run made id es)
      s.noteAlternation
  | .many e => fun s =>
    Step.traceTurns id (e.step ctx run id) (e.trace ctx run made id)
      (ctx.source.size - s.cursor id + 1) s
  | .tally e _ => fun s =>
    Step.traceTurns id (e.step ctx run id) (e.trace ctx run made id)
      (ctx.source.size - s.cursor id + 1) s
  | .counted e _ => fun s =>
    Step.traceTurns id (e.step ctx run id) (e.trace ctx run made id)
      (ctx.source.size - s.cursor id + 1) s
  | .not e => e.trace ctx run made id
  | .all es => Step.traceAll (Expr.traces ctx run made id es)
  | .any es => Step.traceAny (Expr.traces ctx run made id es)
  | .ifElse e yes no =>
    Step.traceIfElse (e.step ctx run id) (e.trace ctx run made id) (yes.trace ctx run made id)
      (no.trace ctx run made id)
  | _ => fun _ => []

def Expr.traces (ctx : Context) (run : NodeId → Step) (made : NodeId → Step.Trace) (id : NodeId) :
    List Expr → List (Step × Step.Trace)
  | [] => []
  | e :: es => (e.step ctx run id, e.trace ctx run made id) :: Expr.traces ctx run made id es

end

theorem Call.trace_body (c : Call) (ctx : Context) (run : NodeId → Step)
    (made : NodeId → Step.Trace) (id : NodeId) :
    c.body.trace ctx run made id = Step.traceCall ctx made id c := by
  cases c <;> rfl

theorem Expr.Own.trace_eq {ctx : Context} {src : Source} {e : Expr} {f : Terminal}
    (h : e.Own src f) (run : NodeId → Step) (made : NodeId → Step.Trace) (id : NodeId) :
    e.trace ctx run made id = fun _ => [] := by
  cases h <;> rfl

/-- All attempts of an attempt, itself first. After a fault, without a level to go and where the
rule is not defined it makes no others. -/
def Context.trace (ctx : Context) : Nat → NodeId → Step.Trace
  | 0, id => fun s => [⟨0, id, s⟩]
  | left + 1, id => fun s =>
    ⟨left + 1, id, s⟩ ::
      if s.fault.isSome then []
      else
        match ctx.rules.rule? (s.node id).name with
        | none => []
        | some body =>
          body.trace ctx (ctx.attempt left) (ctx.trace left) id (s.enter id (ctx.limit - left))

theorem Context.trace_zero (ctx : Context) (id : NodeId) (s : RunState) :
    ctx.trace 0 id s = [⟨0, id, s⟩] := rfl

theorem Context.trace_succ (ctx : Context) (left : Nat) (id : NodeId) (s : RunState) :
    ctx.trace (left + 1) id s =
      ⟨left + 1, id, s⟩ ::
        if s.fault.isSome then []
        else
          match ctx.rules.rule? (s.node id).name with
          | none => []
          | some body =>
            body.trace ctx (ctx.attempt left) (ctx.trace left) id (s.enter id (ctx.limit - left)) :=
  rfl

/-- The rules that have begun to run, after one more event. -/
def Event.pile : List NodeId → Event → List NodeId
  | ids, .enter id .. => id :: ids
  | ids, .leave .. => ids.tail
  | ids, _ => ids

/-- The node whose rule was to be run. -/
def Event.attempted? : Event → Option NodeId
  | .enter id .. => some id
  | .tooDeep id .. => some id
  | .unresolved id .. => some id
  | _ => none

namespace RunState

/-- The nodes whose rules have begun to run and have not ended, the innermost first. -/
def running (s : RunState) : List NodeId := s.journal.foldl Event.pile []

@[simp] theorem running_report (s : RunState) (e : Event) :
    (s.report e).running = e.pile s.running := by
  simp [running, report]

/-- The nodes whose rules were to be run, in the order in which that was reported. -/
def attempted (s : RunState) : List NodeId := s.journal.toList.filterMap Event.attempted?

@[simp] theorem attempted_report (s : RunState) (e : Event) :
    (s.report e).attempted = s.attempted ++ e.attempted?.toList := by
  cases h : e.attempted? <;> simp [attempted, report, h]

/-- A change that concerns neither attempts nor faults, and after which the same nodes are there and
the same of them are marked. -/
structure Quiet (s s' : RunState) : Prop where
  fault : s'.fault = s.fault
  matched : ∀ n, (s'.node n).matched = (s.node n).matched
  size : s'.tree.size = s.tree.size
  name : ∀ n, (s'.node n).name = (s.node n).name
  parent : ∀ n, (s'.node n).parent = (s.node n).parent
  created : s'.counters.nodesCreated = s.counters.nodesCreated
  evaluations : s'.counters.evaluations = s.counters.evaluations
  deepest : s'.counters.deepest = s.counters.deepest
  unresolved : s'.counters.unresolved = s.counters.unresolved
  running : s'.running = s.running
  attempted : s'.attempted = s.attempted

namespace Quiet

variable {s s' : RunState} {id : NodeId} {f : Node → Node}

/-- Only the table, the counters, the fault and what is read off the journal matter. -/
theorem of_tree (htree : s'.tree = s.tree) (hfault : s'.fault = s.fault)
    (hcreated : s'.counters.nodesCreated = s.counters.nodesCreated)
    (hevaluations : s'.counters.evaluations = s.counters.evaluations)
    (hdeepest : s'.counters.deepest = s.counters.deepest)
    (hunresolved : s'.counters.unresolved = s.counters.unresolved)
    (hrunning : s'.running = s.running) (hattempted : s'.attempted = s.attempted) : s.Quiet s' where
  fault := hfault
  matched := fun n => by rw [node, node, htree]
  size := by rw [htree]
  name := fun n => by rw [node, node, htree]
  parent := fun n => by rw [node, node, htree]
  created := hcreated
  evaluations := hevaluations
  deepest := hdeepest
  unresolved := hunresolved
  running := hrunning
  attempted := hattempted

theorem refl (s : RunState) : s.Quiet s := of_tree rfl rfl rfl rfl rfl rfl rfl rfl

theorem modify (hmatched : (f (s.node id)).matched = (s.node id).matched)
    (horigin : (s.node id).SameOrigin (f (s.node id))) : s.Quiet (s.modify id f) where
  fault := rfl
  matched := Tree.apply_node_modify Node.matched hmatched
  size := size_modify s id f
  name := Tree.apply_node_modify Node.name horigin.name
  parent := Tree.apply_node_modify Node.parent horigin.parent
  created := rfl
  evaluations := rfl
  deepest := rfl
  unresolved := rfl
  running := rfl
  attempted := rfl

theorem moveTo (s : RunState) (id : NodeId) (point : Nat) : s.Quiet (s.moveTo id point) :=
  modify rfl ⟨rfl, rfl, rfl, rfl, rfl, rfl, rfl⟩

theorem keepChildren (s : RunState) (id : NodeId) (base : Nat) :
    s.Quiet (s.keepChildren id base) :=
  modify rfl ⟨rfl, rfl, rfl, rfl, rfl, rfl, rfl⟩

theorem addChildren (s : RunState) (id : NodeId) (ids : List NodeId) :
    s.Quiet (s.addChildren id ids) :=
  modify rfl ⟨rfl, rfl, rfl, rfl, rfl, rfl, rfl⟩

theorem addExpected (s : RunState) (id : NodeId) (e : Expectations) :
    s.Quiet (s.addExpected id e) :=
  modify rfl ⟨rfl, rfl, rfl, rfl, rfl, rfl, rfl⟩

theorem noteAlternation (s : RunState) : s.Quiet s.noteAlternation :=
  of_tree rfl rfl rfl rfl rfl rfl rfl rfl

theorem report {e : Event} (s : RunState) (he : ∀ ids, e.pile ids = ids)
    (hattempt : e.attempted? = none) : s.Quiet (s.report e) :=
  of_tree rfl rfl rfl rfl rfl rfl (by simp [he]) (by simp [hattempt])

end Quiet

end RunState

/-- What a quiet change has and what joins where one trace goes on from another. -/
structure Chain (R : RunState → List Attempt → RunState → Prop) : Prop where
  quiet : ∀ {s s'}, s.Quiet s' → R s [] s'
  append : ∀ {s s' s'' made made'}, R s made s' → R s' made' s'' → R s (made ++ made') s''

namespace Chain

variable {R : RunState → List Attempt → RunState → Prop} {s s' s'' : RunState}
  {made : List Attempt}

theorem before (h : Chain R) (hquiet : s.Quiet s') (hr : R s' made s'') : R s made s'' := by
  simpa using h.append (h.quiet hquiet) hr

theorem after (h : Chain R) (hr : R s made s') (hquiet : s'.Quiet s'') : R s made s'' := by
  simpa using h.append hr (h.quiet hquiet)

end Chain

namespace Step

variable {R : RunState → List Attempt → RunState → Prop} {id : NodeId} {r : Step} {made : Trace}
  {rs : List (Step × Trace)}

/-- The relation holds from every state to where the step leads from there, with its attempts. -/
def Follows (R : RunState → List Attempt → RunState → Prop) (p : Step × Trace) : Prop :=
  ∀ s, R s (p.2 s) (p.1 s).2

variable (hR : Chain R)
include hR

theorem follows_quiet (h : ∀ s : RunState, s.Quiet (r s).2) : Follows R (r, fun _ => []) :=
  fun s => hR.quiet (h s)

theorem follows_own {f : Terminal} (hmatched : f.Spares Node.matched) (hkeeps : f.Keeps) :
    Follows R (own id f, fun _ => []) :=
  follows_quiet hR fun _ => .modify (hmatched _) (hkeeps _).1

theorem follows_ifElse {yes no : Step} {madeYes madeNo : Trace} (h : Follows R (r, made))
    (hyes : Follows R (yes, madeYes)) (hno : Follows R (no, madeNo)) :
    Follows R (ifElse r yes no, traceIfElse r made madeYes madeNo) := by
  intro s
  have hfirst : R s (made s) (r s).2 := h s
  show R s (made s ++ if (r s).1 then madeYes (r s).2 else madeNo (r s).2) (ifElse r yes no s).2
  unfold ifElse
  generalize r s = out at hfirst ⊢
  obtain ⟨ok, s'⟩ := out
  cases ok with
  | true => exact hR.append hfirst (hyes s')
  | false => exact hR.append hfirst (hno s')

theorem follows_all (h : ∀ p ∈ rs, Follows R p) :
    Follows R (all (rs.map Prod.fst), traceAll rs) := by
  induction rs with
  | nil => exact fun s => hR.quiet (.refl s)
  | cons p rs ih =>
    obtain ⟨hr, hrs⟩ := List.forall_mem_cons.1 h
    exact follows_ifElse hR hr (ih hrs) (follows_quiet hR .refl)

theorem follows_any (h : ∀ p ∈ rs, Follows R p) :
    Follows R (any (rs.map Prod.fst), traceAny rs) := by
  induction rs with
  | nil => exact fun s => hR.quiet (.refl s)
  | cons p rs ih =>
    obtain ⟨hr, hrs⟩ := List.forall_mem_cons.1 h
    exact follows_ifElse hR hr (follows_quiet hR .refl) (ih hrs)

theorem follows_sequence (id : NodeId) (h : ∀ p ∈ rs, Follows R p) :
    Follows R (sequence id (rs.map Prod.fst), traceAll rs) := by
  intro s
  have hall : R s (traceAll rs s) (all (rs.map Prod.fst) s).2 := follows_all hR h s
  dsimp only
  unfold sequence
  generalize all (rs.map Prod.fst) s = out at hall ⊢
  obtain ⟨ok, s'⟩ := out
  cases ok with
  | true => exact hall
  | false => exact hR.after hall (.moveTo s' id (s.cursor id))

theorem follows_trials (id : NodeId) (point base : Nat) (h : ∀ p ∈ rs, Follows R p)
    (s : RunState) :
    R s (traceTrials id point base rs s) (trials id point base (rs.map Prod.fst) s).2 := by
  induction rs generalizing s with
  | nil => exact hR.quiet (.refl s)
  | cons p rs ih =>
    obtain ⟨r, made⟩ := p
    obtain ⟨hr, hrs⟩ := List.forall_mem_cons.1 h
    have hfirst := hR.before (.moveTo s id point) (hr (s.moveTo id point))
    rw [List.map_cons, trials_cons]
    exact hR.append (hR.after hfirst (.keepChildren _ id base)) (ih hrs _)

theorem follows_settle {made : List Attempt} {s s' : RunState} (id : NodeId) (point : Nat)
    (ts : List (Trial NodeId)) (h : R s made s') : R s made (settle id point (ts, s')).2 := by
  have hmoved := hR.after h (.moveTo s' id point)
  simp only [settle]
  split
  · exact hmoved
  split
  · exact hR.after (hR.after (hR.after hmoved (.report _ (fun _ => rfl) rfl)) (.addChildren _ _ _))
      (.moveTo _ _ _)
  · exact hR.after hmoved (.addExpected _ _ _)

theorem follows_turns (id : NodeId) (h : Follows R (r, made)) (fuel count : Nat) (s : RunState) :
    R s (traceTurns id r made fuel s) (turns id r fuel count s).2 := by
  induction fuel generalizing count s with
  | zero => exact hR.quiet (.refl s)
  | succ fuel ih =>
    have hturn : R s (made s) (r s).2 := h s
    rw [traceTurns, turns]
    generalize r s = out at hturn ⊢
    obtain ⟨matched, s'⟩ := out
    dsimp only
    split
    · exact hR.append hturn (ih (count + 1) s')
    · rw [List.append_nil]
      exact hR.after (hR.after (hR.after hturn (.keepChildren _ _ _)) (.addExpected _ _ _))
        (.moveTo _ _ _)

theorem follows_call (ctx : Context) {run : NodeId → Step} {made : NodeId → Trace} (id : NodeId)
    (c : Call) (h : ∀ s : RunState, R s (made s.tree.size (s.grow ctx id c.rule c.role))
      (run s.tree.size (s.grow ctx id c.rule c.role)).2) :
    Follows R (call ctx run id c, traceCall ctx made id c) := by
  intro s
  have hcall := h s
  show R s (made s.tree.size (s.grow ctx id c.rule c.role)) (call ctx run id c s).2
  unfold call
  generalize run s.tree.size (s.grow ctx id c.rule c.role) = out at hcall ⊢
  obtain ⟨ok, s'⟩ := out
  cases ok with
  | true => exact hR.after hcall (.moveTo _ _ _)
  | false =>
    exact hR.after hcall (.modify (Node.missed_spares (fun _ _ => rfl) ctx.source c _)
      (Node.keeps_missed ctx.source c _).1)

end Step

theorem Expr.traces_eq (ctx : Context) (run : NodeId → Step) (made : NodeId → Step.Trace)
    (id : NodeId) (es : List Expr) : Expr.traces ctx run made id es =
      es.map fun e => (e.step ctx run id, e.trace ctx run made id) := by
  induction es with
  | nil => rfl
  | cons e es ih => rw [traces, ih, List.map_cons]

theorem Expr.map_fst_traces (ctx : Context) (run : NodeId → Step) (made : NodeId → Step.Trace)
    (id : NodeId) (es : List Expr) :
    (Expr.traces ctx run made id es).map Prod.fst = Expr.steps ctx run id es := by
  rw [traces_eq, steps_eq, List.map_map]
  rfl

/-- What joins along a run and holds of the calls of a body holds of the body. -/
theorem Expr.follows_step {R : RunState → List Attempt → RunState → Prop} (hR : Chain R)
    (ctx : Context) {run : NodeId → Step} {made : NodeId → Step.Trace} (id : NodeId)
    (h : ∀ (c : Call) (s : RunState), R s (made s.tree.size (s.grow ctx id c.rule c.role))
      (run s.tree.size (s.grow ctx id c.rule c.role)).2) (e : Expr) :
    Step.Follows R (e.step ctx run id, e.trace ctx run made id) := by
  have hlist : ∀ {es : List Expr},
      (∀ e ∈ es, Step.Follows R (e.step ctx run id, e.trace ctx run made id)) →
        ∀ p ∈ Expr.traces ctx run made id es, Step.Follows R p := by
    intro es hes
    rw [traces_eq]
    exact List.forall_mem_map.2 hes
  induction e using Expr.induct ctx.source with
  | call c =>
    rw [c.step_body, c.trace_body]
    exact Step.follows_call hR ctx id c (h c)
  | seq es ih =>
    have hes := Step.follows_sequence hR id (hlist ih)
    rw [map_fst_traces] at hes
    exact hes
  | alt es ih =>
    intro s
    have hes := Step.follows_trials hR id (s.cursor id) (s.node id).children.length (hlist ih)
      s.noteAlternation
    rw [map_fst_traces] at hes
    exact hR.before (.noteAlternation s) (Step.follows_settle hR id (s.cursor id) _ hes)
  | many e ih => exact fun s => Step.follows_turns hR id ih _ 0 s
  | tally e least ih =>
    exact fun s => hR.after (Step.follows_turns hR id ih _ 0 s) (.report _ (fun _ => rfl) rfl)
  | counted e test ih => exact fun s => Step.follows_turns hR id ih _ 0 s
  | own hown =>
    rw [hown.step_eq, hown.trace_eq]
    exact Step.follows_own hR (hown.spares (fun _ _ _ => rfl) fun _ _ => rfl) hown.keeps
  | probe label => exact Step.follows_quiet hR fun s => .report s (fun _ => rfl) rfl
  | not e ih => exact ih
  | all es ih =>
    have hes := Step.follows_all hR (hlist ih)
    rw [map_fst_traces] at hes
    exact hes
  | any es ih =>
    have hes := Step.follows_any hR (hlist ih)
    rw [map_fst_traces] at hes
    exact hes
  | ifElse e yes no ihe ihyes ihno => exact Step.follows_ifElse hR ihe ihyes ihno
  | const ok => exact Step.follows_quiet hR fun s => .refl s

/-- A rule that is not defined is noted, and no rule is run. -/
theorem RunState.noteUnresolved_spares (s : RunState) (ctx : Context) (id : NodeId) :
    (s.noteUnresolved ctx id).running = s.running ∧
      (s.noteUnresolved ctx id).counters.evaluations = s.counters.evaluations := by
  unfold noteUnresolved
  dsimp only
  split
  · exact ⟨s.running_report _, rfl⟩
  · exact ⟨s.running_report _, rfl⟩

namespace Context

/-- The attempt runs a rule: nothing has gone wrong, a level is left and the rule is defined. -/
def runsAt (ctx : Context) (a : Attempt) : Bool :=
  a.state.fault.isNone && decide (0 < a.left) &&
    (ctx.rules.rule? (a.state.node a.id).name).isSome

/-- The rules that an attempt runs are counted, each of them once. -/
theorem evaluations_attempt (ctx : Context) (left : Nat) (id : NodeId) (s : RunState) :
    (ctx.attempt left id s).2.counters.evaluations =
      s.counters.evaluations + (ctx.trace left id s).countP ctx.runsAt := by
  induction left generalizing id s with
  | zero =>
    have hstays : ctx.runsAt ⟨0, id, s⟩ = false := by simp [runsAt]
    rw [trace_zero, attempt_zero, List.countP_singleton, hstays]
    split
    · rfl
    · rfl
  | succ left ih =>
    rw [trace_succ, attempt_succ, List.countP_cons]
    by_cases hsome : s.fault.isSome
    · have hstays : ctx.runsAt ⟨left + 1, id, s⟩ = false := by
        simp [runsAt, Option.isSome_iff_ne_none.1 hsome]
      rw [if_pos hsome, if_pos hsome, hstays]
      rfl
    · rw [if_neg hsome, if_neg hsome]
      cases hrule : ctx.rules.rule? (s.node id).name with
      | none =>
        have hstays : ctx.runsAt ⟨left + 1, id, s⟩ = false := by simp [runsAt, hrule]
        rw [hstays]
        exact (s.noteUnresolved_spares ctx id).2
      | some body =>
        have hruns : ctx.runsAt ⟨left + 1, id, s⟩ = true := by
          simp [runsAt, Option.not_isSome_iff_eq_none.1 hsome, hrule]
        have hchain : Chain fun s made s' =>
            s'.counters.evaluations = s.counters.evaluations + made.countP ctx.runsAt :=
          ⟨fun hquiet => hquiet.evaluations, fun h h' => by
            rw [h', h, List.countP_append, Nat.add_assoc]⟩
        have hcall : ∀ (c : Call) (s : RunState),
            (ctx.attempt left s.tree.size (s.grow ctx id c.rule c.role)).2.counters.evaluations =
              s.counters.evaluations +
                (ctx.trace left s.tree.size (s.grow ctx id c.rule c.role)).countP ctx.runsAt :=
          fun c s => ih s.tree.size (s.grow ctx id c.rule c.role)
        have hbody := Expr.follows_step hchain ctx id hcall body (s.enter id (ctx.limit - left))
        have hleave : ∀ out : Bool × RunState, (RunState.leave id out).2.counters.evaluations =
            out.2.counters.evaluations := fun _ => rfl
        have henter : (s.enter id (ctx.limit - left)).counters.evaluations =
            s.counters.evaluations + 1 := rfl
        rw [hleave, hbody, henter, hruns, if_pos rfl, Nat.add_assoc, Nat.add_comm 1]

end Context

end RankedGrammar
