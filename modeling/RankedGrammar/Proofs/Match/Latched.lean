import RankedGrammar.Proofs.Match.Limit
import RankedGrammar.Proofs.Match.Trace

/-!
What comes after rules have been nested too deeply. The first attempt that is made at the limit says
what went wrong, and nothing changes that. The bodies that are at work go on to their ends and make
nodes, but no rule is run any more, nothing is counted and nothing is marked as matched; so all
the rules that were running fail.
-/
namespace RankedGrammar

/-- The number of rules that are running when the attempt is made. -/
def Attempt.depth (a : Attempt) : Nat := a.state.running.length

/-- What goes wrong at the first attempt that is made at the limit. -/
def Context.firstDeep (ctx : Context) (made : List Attempt) : Option TooDeep :=
  (made.find? fun a => a.depth = ctx.limit).map fun a =>
    ⟨ctx.limit, (a.state.node a.id).name⟩

section FirstDeep

variable {ctx : Context} {a : Attempt} {made made' : List Attempt}

theorem firstDeep_append :
    ctx.firstDeep (made ++ made') = (ctx.firstDeep made).or (ctx.firstDeep made') := by
  unfold Context.firstDeep
  rw [List.find?_append, Option.map_or]

theorem firstDeep_cons_of_ne (h : a.depth ≠ ctx.limit) :
    ctx.firstDeep (a :: made) = ctx.firstDeep made := by
  unfold Context.firstDeep
  rw [List.find?_cons_of_neg (by simpa using h)]

theorem firstDeep_eq_none_iff :
    ctx.firstDeep made = none ↔ ∀ a ∈ made, a.depth ≠ ctx.limit := by
  simp [Context.firstDeep]

theorem firstDeep_isSome (ha : a ∈ made) (hdeep : a.depth = ctx.limit) :
    (ctx.firstDeep made).isSome = true := by
  rw [Option.isSome_iff_ne_none, ne_eq, firstDeep_eq_none_iff]
  exact fun h => h a ha hdeep

theorem split_append {α : Type} {xs ys pre post : List α} {x : α}
    (h : xs ++ ys = pre ++ x :: post) :
    (∃ mid, xs = pre ++ x :: mid ∧ post = mid ++ ys) ∨
      ∃ mid, pre = xs ++ mid ∧ ys = mid ++ x :: post := by
  obtain ⟨mid, hpre, hys⟩ | ⟨mid, hxs, hpost⟩ := List.append_eq_append_iff.1 h
  · exact .inr ⟨mid, hpre, hys⟩
  · cases mid with
    | nil => exact .inr ⟨[], by simpa using hxs.symm, hpost.symm⟩
    | cons y mid =>
      obtain ⟨rfl, rfl⟩ := List.cons.inj hpost
      exact .inl ⟨mid, hxs, rfl⟩

theorem split_cons {α : Type} {xs pre post : List α} {x y : α} (h : x :: xs = pre ++ y :: post) :
    (pre = [] ∧ y = x ∧ post = xs) ∨ ∃ mid, pre = x :: mid ∧ xs = mid ++ y :: post := by
  cases pre with
  | nil =>
    obtain ⟨rfl, rfl⟩ := List.cons.inj h
    exact .inl ⟨rfl, rfl, rfl⟩
  | cons z mid =>
    obtain ⟨rfl, hrest⟩ := List.cons.inj h
    exact .inr ⟨mid, rfl, hrest⟩

end FirstDeep

namespace RunState

/-- Since `s` no rule has been run, no name has been noted as undefined and no node marked. -/
structure Idle (s s' : RunState) : Prop where
  evaluations : s'.counters.evaluations = s.counters.evaluations
  deepest : s'.counters.deepest = s.counters.deepest
  unresolved : s'.counters.unresolved = s.counters.unresolved
  matched : ∀ n, (s'.node n).matched = true → (s.node n).matched = true

namespace Idle

variable {s s' s'' : RunState}

theorem refl (s : RunState) : s.Idle s := ⟨rfl, rfl, rfl, fun _ h => h⟩

theorem trans (h : s.Idle s') (h' : s'.Idle s'') : s.Idle s'' where
  evaluations := h'.evaluations.trans h.evaluations
  deepest := h'.deepest.trans h.deepest
  unresolved := h'.unresolved.trans h.unresolved
  matched := fun n hn => h.matched n (h'.matched n hn)

theorem unmatched (h : s.Idle s') {n : NodeId} (hn : (s.node n).matched = false) :
    (s'.node n).matched = false :=
  Bool.eq_false_iff.2 fun htrue => Bool.eq_false_iff.1 hn (h.matched n htrue)

end Idle

theorem Quiet.idle {s s' : RunState} (h : s.Quiet s') : s.Idle s' :=
  ⟨h.evaluations, h.deepest, h.unresolved, fun n hn => h.matched n ▸ hn⟩

theorem matched_grow (s : RunState) (ctx : Context) (id : NodeId) (name : String) (role : Role)
    (n : NodeId) : ((s.grow ctx id name role).node n).matched = (s.node n).matched :=
  s.apply_node_grow_of_fresh ctx id name role (fun _ _ => rfl) rfl n

theorem idle_grow (s : RunState) (ctx : Context) (id : NodeId) (c : Call) :
    s.Idle (s.grow ctx id c.rule c.role) :=
  ⟨rfl, rfl, rfl, fun n hn => s.matched_grow ctx id c.rule c.role n ▸ hn⟩

theorem idle_leave {id : NodeId} {ok : Bool} {s : RunState} (hfault : s.fault.isSome = true) :
    s.Idle (leave id (ok, s)).2 ∧ ((leave id (ok, s)).2.node id).matched = false := by
  have hmark : (ok && s.fault.isNone) = false := by simp [hfault]
  have hself : ((leave id (ok, s)).2.node id).matched = false := by
    show ((s.modify id fun n => { n with matched := ok && s.fault.isNone }).node id).matched = false
    by_cases hid : id < s.tree.size
    · rw [node_modify_self s _ hid, hmark]
    · refine congrArg Node.matched (Tree.node_of_size_le ?_)
      rw [size_modify]
      exact Nat.not_lt.1 hid
  refine ⟨⟨rfl, rfl, rfl, fun n hn => ?_⟩, hself⟩
  by_cases hne : id = n
  · subst hne
    exact absurd hn (Bool.eq_false_iff.1 hself)
  · have hkept : (leave id (ok, s)).2.node n = s.node n := node_modify_of_ne s _ hne
    rwa [hkept] at hn

end RunState

/-- How a run goes on from `s` to `s'`, which has made so many attempts. -/
structure Course (ctx : Context) (s : RunState) (made : List Attempt) (s' : RunState) : Prop where
  running : s'.running = s.running
  level : ∀ a ∈ made, a.depth + a.left = ctx.limit
  fresh : ∀ a ∈ made, (a.state.node a.id).matched = false
  fault : s'.fault = s.fault.or (ctx.firstDeep made)
  found : ∀ pre a post, made = pre ++ a :: post →
    a.state.fault = s.fault.or (ctx.firstDeep pre)
  idle : s.fault.isSome = true → s.Idle s' ∧ ∀ a ∈ made, s.Idle a.state
  later : ∀ pre a post, made = pre ++ a :: post → a.depth = ctx.limit →
    a.state.Idle s' ∧ ∀ b ∈ post, a.state.Idle b.state
  unmatched : ∀ a ∈ made, a.depth = ctx.limit → ∀ n ∈ a.id :: a.state.running,
    n ∈ s.running ∨ (s'.node n).matched = false

namespace Course

variable {ctx : Context} {s s' s'' : RunState} {made made' : List Attempt}

theorem of_quiet (h : s.Quiet s') : Course ctx s [] s' where
  running := h.running
  level := by simp
  fresh := by simp
  fault := by simp [h.fault, Context.firstDeep]
  found := by simp
  idle := fun _ => ⟨h.idle, by simp⟩
  later := by simp
  unmatched := by simp

theorem fault_isSome (h : Course ctx s made s') {a : Attempt} (ha : a ∈ made)
    (hdeep : a.depth = ctx.limit) : s'.fault.isSome = true := by
  rw [h.fault, Option.isSome_or, firstDeep_isSome ha hdeep, Bool.or_true]

theorem append (h : Course ctx s made s') (h' : Course ctx s' made' s'') :
    Course ctx s (made ++ made') s'' where
  running := h'.running.trans h.running
  level := List.forall_mem_append.2 ⟨h.level, h'.level⟩
  fresh := List.forall_mem_append.2 ⟨h.fresh, h'.fresh⟩
  fault := by rw [h'.fault, h.fault, firstDeep_append, Option.or_assoc]
  found := by
    intro pre a post hsplit
    obtain ⟨mid, hmade, -⟩ | ⟨mid, rfl, hmade'⟩ := split_append hsplit
    · exact h.found pre a mid hmade
    · rw [h'.found mid a post hmade', h.fault, firstDeep_append, Option.or_assoc]
  idle := by
    intro hfault
    obtain ⟨hidle, hmade⟩ := h.idle hfault
    have hfault' : s'.fault.isSome = true := by rw [h.fault, Option.isSome_or, hfault, Bool.true_or]
    obtain ⟨hidle', hmade'⟩ := h'.idle hfault'
    refine ⟨hidle.trans hidle', List.forall_mem_append.2 ⟨hmade, fun a ha => ?_⟩⟩
    exact hidle.trans (hmade' a ha)
  later := by
    intro pre a post hsplit hdeep
    obtain ⟨mid, hmade, rfl⟩ | ⟨mid, -, hmade'⟩ := split_append hsplit
    · obtain ⟨hidle, hmid⟩ := h.later pre a mid hmade hdeep
      have hfault := h.fault_isSome (hmade ▸ List.mem_append_right pre List.mem_cons_self) hdeep
      obtain ⟨hidle', hafter⟩ := h'.idle hfault
      refine ⟨hidle.trans hidle', List.forall_mem_append.2 ⟨hmid, fun b hb => ?_⟩⟩
      exact hidle.trans (hafter b hb)
    · exact h'.later mid a post hmade' hdeep
  unmatched := by
    intro a ha hdeep n hn
    cases List.mem_append.1 ha with
    | inl ha =>
      obtain ⟨hidle', -⟩ := h'.idle (h.fault_isSome ha hdeep)
      exact (h.unmatched a ha hdeep n hn).imp_right hidle'.unmatched
    | inr ha => exact h.running ▸ h'.unmatched a ha hdeep n hn

/-- A new child for a call runs nothing yet. -/
theorem of_grow {id : NodeId} (c : Call) (h : Course ctx (s.grow ctx id c.rule c.role) made s') :
    Course ctx s made s' where
  running := h.running
  level := h.level
  fresh := h.fresh
  fault := h.fault
  found := h.found
  idle := by
    intro hsome
    obtain ⟨hend, hmade⟩ := h.idle hsome
    have hgrow := s.idle_grow ctx id c
    exact ⟨hgrow.trans hend, fun a ha => hgrow.trans (hmade a ha)⟩
  later := h.later
  unmatched := h.unmatched

/-- An attempt that makes no others. -/
theorem alone {left : Nat} {id : NodeId} (hlevel : s.running.length + left = ctx.limit)
    (hfresh : (s.node id).matched = false) (hrunning : s'.running = s.running)
    (hfault : s'.fault = s.fault.or (ctx.firstDeep [⟨left, id, s⟩]))
    (hidle : s.fault.isSome = true ∨ s.running.length = ctx.limit → s.Idle s') :
    Course ctx s [⟨left, id, s⟩] s' where
  running := hrunning
  level := List.forall_mem_singleton.2 hlevel
  fresh := List.forall_mem_singleton.2 hfresh
  fault := hfault
  found := by
    intro pre a post hsplit
    obtain ⟨rfl, rfl, -⟩ | ⟨mid, -, hnil⟩ := split_cons hsplit
    · simp [Context.firstDeep]
    · simp at hnil
  idle := fun hsome => ⟨hidle (.inl hsome), List.forall_mem_singleton.2 (.refl s)⟩
  later := by
    intro pre a post hsplit hdeep
    obtain ⟨-, rfl, rfl⟩ | ⟨mid, -, hnil⟩ := split_cons hsplit
    · exact ⟨hidle (.inr hdeep), by simp⟩
    · simp at hnil
  unmatched := by
    intro a ha hdeep n hn
    obtain rfl := List.mem_singleton.1 ha
    cases List.mem_cons.1 hn with
    | inl heq => exact .inr (heq ▸ (hidle (.inr hdeep)).unmatched hfresh)
    | inr hin => exact .inl hin

/-- An attempt that runs a rule and so makes the attempts of its body. -/
theorem body {left depth : Nat} {id : NodeId} {s₁ : RunState}
    (hlevel : s.running.length + (left + 1) = ctx.limit) (hfresh : (s.node id).matched = false)
    (hnone : s.fault = none) (h : Course ctx (s.enter id depth) made s₁) (ok : Bool) :
    Course ctx s (⟨left + 1, id, s⟩ :: made) (RunState.leave id (ok, s₁)).2 := by
  have hshallow : (⟨left + 1, id, s⟩ : Attempt).depth ≠ ctx.limit := by
    show s.running.length ≠ ctx.limit
    omega
  have henter : (s.enter id depth).running = id :: s.running := s.running_report _
  have hfault : (RunState.leave id (ok, s₁)).2.fault = s₁.fault := rfl
  have hbegun : (s.enter id depth).fault = s.fault := rfl
  -- what is left unmarked by the body stays so, and the rule is not marked where the body met the limit
  have hleave : ∀ a ∈ made, a.depth = ctx.limit → s₁.Idle (RunState.leave id (ok, s₁)).2 ∧
      ((RunState.leave id (ok, s₁)).2.node id).matched = false :=
    fun a ha hdeep => RunState.idle_leave (h.fault_isSome ha hdeep)
  constructor
  · have hpop : (RunState.leave id (ok, s₁)).2.running = s₁.running.tail :=
      RunState.running_report _ _
    rw [hpop, h.running, henter, List.tail_cons]
  · exact List.forall_mem_cons.2 ⟨hlevel, h.level⟩
  · exact List.forall_mem_cons.2 ⟨hfresh, h.fresh⟩
  · rw [hfault, h.fault, hbegun, firstDeep_cons_of_ne hshallow]
  · intro pre a post hsplit
    obtain ⟨rfl, rfl, -⟩ | ⟨mid, rfl, hmade⟩ := split_cons hsplit
    · simp [Context.firstDeep]
    · rw [firstDeep_cons_of_ne hshallow, h.found mid a post hmade, hbegun]
  · intro hsome
    rw [hnone] at hsome
    cases hsome
  · intro pre a post hsplit hdeep
    obtain ⟨-, rfl, -⟩ | ⟨mid, -, hmade⟩ := split_cons hsplit
    · exact absurd hdeep hshallow
    · obtain ⟨hidle, hpost⟩ := h.later mid a post hmade hdeep
      have ha : a ∈ made := hmade ▸ List.mem_append_right mid List.mem_cons_self
      exact ⟨hidle.trans (hleave a ha hdeep).1, hpost⟩
  · intro a ha hdeep n hn
    obtain rfl | ha := List.mem_cons.1 ha
    · exact absurd hdeep hshallow
    · obtain ⟨hidle, hself⟩ := hleave a ha hdeep
      have hbody := h.unmatched a ha hdeep n hn
      rw [henter, List.mem_cons] at hbody
      obtain (rfl | hin) | hunmarked := hbody
      · exact .inr hself
      · exact .inl hin
      · exact .inr (hidle.unmatched hunmarked)

end Course

/-- The course of a run joins, where as many rules are running as the levels that are gone. -/
theorem chain_course (ctx : Context) (left : Nat) :
    Chain fun s made s' => s.running.length + left = ctx.limit → Course ctx s made s' where
  quiet := fun hquiet _ => .of_quiet hquiet
  append := fun h h' hlevel => by
    have hfirst := h hlevel
    exact hfirst.append (h' (by rw [hfirst.running]; exact hlevel))

namespace Context

/-- At the limit the first attempt says what went wrong. -/
theorem course_attempt_zero (ctx : Context) (id : NodeId) (s : RunState)
    (hlevel : s.running.length = ctx.limit) (hfresh : (s.node id).matched = false) :
    Course ctx s [⟨0, id, s⟩] (ctx.attempt 0 id s).2 := by
  have hdeep : ctx.firstDeep [⟨0, id, s⟩] = some ⟨ctx.limit, (s.node id).name⟩ := by
    simp [firstDeep, Attempt.depth, hlevel]
  rw [attempt_zero]
  by_cases hsome : s.fault.isSome
  · rw [if_pos hsome]
    refine .alone hlevel hfresh rfl ?_ fun _ => .refl s
    rw [Option.or_of_isSome hsome]
  · rw [if_neg hsome]
    refine .alone hlevel hfresh (s.running_report _) ?_ fun _ => ⟨rfl, rfl, rfl, fun _ h => h⟩
    rw [hdeep, Option.not_isSome_iff_eq_none.1 hsome]
    rfl

theorem course_attempt (ctx : Context) (left : Nat) (id : NodeId) (s : RunState)
    (hlevel : s.running.length + left = ctx.limit) (hfresh : (s.node id).matched = false) :
    Course ctx s (ctx.trace left id s) (ctx.attempt left id s).2 := by
  induction left generalizing id s with
  | zero => exact course_attempt_zero ctx id s hlevel hfresh
  | succ left ih =>
    have hshallow : s.running.length ≠ ctx.limit := by omega
    have hfirst : ctx.firstDeep [⟨left + 1, id, s⟩] = none := by
      simpa [firstDeep_eq_none_iff, Attempt.depth] using hshallow
    rw [trace_succ, attempt_succ]
    by_cases hsome : s.fault.isSome
    · rw [if_pos hsome, if_pos hsome]
      refine .alone hlevel hfresh rfl ?_ fun _ => .refl s
      rw [hfirst, Option.or_none]
    · rw [if_neg hsome, if_neg hsome]
      have hnone := Option.not_isSome_iff_eq_none.1 hsome
      cases ctx.rules.rule? (s.node id).name with
      | none =>
        refine .alone hlevel hfresh (s.noteUnresolved_spares ctx id).1 ?_ fun hor => ?_
        · rw [hfirst, Option.or_none]
          exact s.fault_noteUnresolved ctx id
        · simp [hnone, hshallow] at hor
      | some body =>
        have hcall : ∀ (c : Call) (s : RunState), s.running.length + left = ctx.limit →
            Course ctx s (ctx.trace left s.tree.size (s.grow ctx id c.rule c.role))
              (ctx.attempt left s.tree.size (s.grow ctx id c.rule c.role)).2 := by
          intro c s hlevel
          refine .of_grow c (ih s.tree.size _ hlevel ?_)
          rw [RunState.matched_grow]
          exact congrArg Node.matched (Tree.node_of_size_le (Nat.le_refl s.tree.size))
        have hbody := Expr.follows_step (chain_course ctx left) ctx id hcall body
          (s.enter id (ctx.limit - left)) ?_
        · exact .body hlevel hfresh hnone hbody _
        · have henter : (s.enter id (ctx.limit - left)).running = id :: s.running :=
            s.running_report _
          rw [henter, List.length_cons]
          omega

theorem attempt_of_fault (ctx : Context) (left : Nat) (id : NodeId) {s : RunState}
    (hfault : s.fault.isSome = true) : ctx.attempt left id s = (false, s) := by
  cases left with
  | zero => rw [attempt_zero, if_pos hfault]
  | succ left => rw [attempt_succ, if_pos hfault]

/-- A body that goes on after a fault changes the nodes' own work only. -/
theorem idle_step (ctx : Context) (left : Nat) (id : NodeId) (e : Expr) {s : RunState}
    (hfault : s.fault.isSome = true) :
    (e.step ctx (ctx.attempt left) id s).2.fault = s.fault ∧
      s.Idle (e.step ctx (ctx.attempt left) id s).2 := by
  have hchain : Chain fun s _ s' => s.fault.isSome = true → s'.fault = s.fault ∧ s.Idle s' := by
    refine ⟨fun hquiet _ => ⟨hquiet.fault, hquiet.idle⟩, fun h h' hsome => ?_⟩
    obtain ⟨hkept, hidle⟩ := h hsome
    obtain ⟨hkept', hidle'⟩ := h' (by rwa [hkept])
    exact ⟨hkept'.trans hkept, hidle.trans hidle'⟩
  have hcall : ∀ (c : Call) (s : RunState), s.fault.isSome = true →
      (ctx.attempt left s.tree.size (s.grow ctx id c.rule c.role)).2.fault = s.fault ∧
        s.Idle (ctx.attempt left s.tree.size (s.grow ctx id c.rule c.role)).2 := by
    intro c s hsome
    have hgrown : (s.grow ctx id c.rule c.role).fault.isSome = true := hsome
    rw [attempt_of_fault ctx left s.tree.size hgrown]
    exact ⟨rfl, s.idle_grow ctx id c⟩
  have hbody : Step.Follows _
      (e.step ctx (ctx.attempt left) id, e.trace ctx (ctx.attempt left) (ctx.trace left) id) :=
    Expr.follows_step hchain ctx id hcall e
  exact hbody s hfault

theorem parse_error_iff (ctx : Context) (rule : String) (collapse : Bool) (fault : TooDeep) :
    (∃ journal, ctx.parse rule collapse = .error ⟨fault, journal⟩) ↔
      (ctx.attempt ctx.limit Tree.root (.start ctx rule)).2.fault = some fault := by
  unfold parse
  rw [rawParse_eq]
  cases (ctx.attempt ctx.limit Tree.root (.start ctx rule)).2.fault with
  | none => simp [Except.map]
  | some other => simp [Except.map]

theorem parse_ok_iff (ctx : Context) (rule : String) (collapse : Bool) :
    (∃ p, ctx.parse rule collapse = .ok p) ↔
      (ctx.attempt ctx.limit Tree.root (.start ctx rule)).2.fault = none := by
  unfold parse
  rw [rawParse_eq]
  cases (ctx.attempt ctx.limit Tree.root (.start ctx rule)).2.fault with
  | none => simp [Except.map]
  | some other => simp [Except.map]

theorem course_run (ctx : Context) (rule : String) :
    Course ctx (.start ctx rule) (ctx.trace ctx.limit Tree.root (.start ctx rule))
      (ctx.attempt ctx.limit Tree.root (.start ctx rule)).2 :=
  course_attempt ctx ctx.limit Tree.root _ (Nat.zero_add _) rfl

/-- The fault of a run is that of the first attempt at the limit: it is there from then on and never
another. After that attempt nothing is counted, noted or marked, whatever the bodies at work do, and
no rule that was running comes to match; and a parse fails, with this very fault, just where there
is such an attempt. The rules that are run are the attempts that find no fault, a level to go and a
body; no run goes beyond the limit, and each attempt ends at the depth where it began. -/
theorem fault_latched (ctx : Context) (rule : String) :
    let made := ctx.trace ctx.limit Tree.root (.start ctx rule)
    let out := (ctx.attempt ctx.limit Tree.root (.start ctx rule)).2
    (∀ pre a post, made = pre ++ a :: post → a.state.fault = ctx.firstDeep pre) ∧
    out.fault = ctx.firstDeep made ∧
    (∀ pre a post, made = pre ++ a :: post → a.depth = ctx.limit →
      a.state.Idle out ∧ (∀ b ∈ post, a.state.Idle b.state) ∧
      ∀ n ∈ a.id :: a.state.running, (out.node n).matched = false) ∧
    (∀ (left : Nat) (id : NodeId) (e : Expr) (s : RunState), s.fault.isSome = true →
      (e.step ctx (ctx.attempt left) id s).2.fault = s.fault ∧
      s.Idle (e.step ctx (ctx.attempt left) id s).2) ∧
    (∀ collapse fault, (∃ journal, ctx.parse rule collapse = .error ⟨fault, journal⟩) ↔
      ctx.firstDeep made = some fault) ∧
    (∀ collapse, (∃ p, ctx.parse rule collapse = .ok p) ↔ ∀ a ∈ made, a.depth ≠ ctx.limit) ∧
    out.counters.evaluations = made.countP ctx.runsAt ∧
    out.counters.deepest ≤ ctx.limit ∧
    ∀ a ∈ made, a.depth + a.left = ctx.limit ∧
      (ctx.attempt a.left a.id a.state).2.running = a.state.running := by
  intro made out
  have hrun : Course ctx (.start ctx rule) made out := course_run ctx rule
  have hfault : out.fault = ctx.firstDeep made := hrun.fault
  have hcount : out.counters.evaluations = 0 + made.countP ctx.runsAt :=
    ctx.evaluations_attempt ctx.limit Tree.root _
  refine ⟨hrun.found, hfault, ?_, fun left id e s => ctx.idle_step left id e, ?_, ?_,
    hcount.trans (Nat.zero_add _), (stands_run ctx rule).1, ?_⟩
  · intro pre a post hsplit hdeep
    obtain ⟨hidle, hpost⟩ := hrun.later pre a post hsplit hdeep
    have ha : a ∈ made := hsplit ▸ List.mem_append_right pre List.mem_cons_self
    refine ⟨hidle, hpost, fun n hn => ?_⟩
    have hnone : n ∉ (RunState.start ctx rule).running := List.not_mem_nil
    exact (hrun.unmatched a ha hdeep n hn).resolve_left hnone
  · intro collapse fault
    rw [parse_error_iff, ← hfault]
  · intro collapse
    rw [parse_ok_iff, ← firstDeep_eq_none_iff, ← hfault]
  · intro a ha
    have hlevel := hrun.level a ha
    exact ⟨hlevel, (course_attempt ctx a.left a.id a.state hlevel (hrun.fresh a ha)).running⟩

/-- A rule that takes a failure for a success, and one that does not mind. -/
def heedless : Context where
  source := .ofString "a"
  limit := 2
  rules := .merge .empty .empty (.ofList [
    ("ROOT", .any [.ref "A", .ref "B", .const true]), ("A", .not (.ref "C")),
    ("B", .byte (.single 97)), ("C", .byte (.single 97))])

def heedlessTrace : List Attempt := heedless.trace heedless.limit Tree.root (.start heedless "ROOT")

def heedlessOutcome : RunState :=
  (heedless.attempt heedless.limit Tree.root (.start heedless "ROOT")).2

/-- The third attempt is at the limit. The fourth is made at a node that is grown after it, and both
of the rules that are running end as if they went well, but nothing matches. -/
theorem fault_latched_heedless :
    ∃ pre a b, heedlessTrace = pre ++ [a, b] ∧ a.depth = heedless.limit ∧
      a.state.tree.size < b.state.tree.size ∧ b.state.fault = some ⟨2, "C"⟩ ∧
      a.state.Idle heedlessOutcome ∧ a.state.running = [1, 0] ∧
      (∀ n ∈ [a.id, 1, 0], (heedlessOutcome.node n).matched = false) ∧
      ∃ journal, heedless.parse "ROOT" = .error ⟨⟨2, "C"⟩, journal⟩ := by
  obtain ⟨hfound, -, hlater, -, herror, -⟩ := fault_latched heedless "ROOT"
  have hsizes : heedlessTrace.map (fun a => a.state.tree.size) = [1, 2, 3, 4] := by decide +kernel
  have hrunning : heedlessTrace.map (fun a => a.state.running) = [[], [0], [1, 0], [0]] := by
    decide +kernel
  have hfirst : heedless.firstDeep (heedlessTrace.take 3) = some ⟨2, "C"⟩ := by decide +kernel
  have hall : heedless.firstDeep heedlessTrace = some ⟨2, "C"⟩ := by decide +kernel
  obtain ⟨w, x, a, b, hmade⟩ := List.length_eq_four.1 (show heedlessTrace.length = 4 by
    decide +kernel)
  rw [hmade] at hsizes hrunning hfirst
  simp only [List.map_cons, List.map_nil, List.cons.injEq, and_true] at hsizes hrunning
  obtain ⟨-, -, ha, hb⟩ := hsizes
  obtain ⟨-, -, harunning, -⟩ := hrunning
  have hdeep : a.depth = heedless.limit := congrArg List.length harunning
  obtain ⟨hidle, -, hunmatched⟩ := hlater [w, x] a [b] hmade hdeep
  rw [harunning] at hunmatched
  refine ⟨[w, x], a, b, hmade, hdeep, ?_, ?_, hidle, harunning, hunmatched, ?_⟩
  · omega
  · rw [← hfirst]
    exact hfound [w, x, a] b [] hmade
  · exact (herror true ⟨2, "C"⟩).2 hall

end Context

end RankedGrammar
