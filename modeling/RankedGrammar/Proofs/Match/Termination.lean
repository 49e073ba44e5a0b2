import Mathlib.Data.Prod.Lex
import Mathlib.Order.WellFounded
import RankedGrammar.Proofs.Match.Cursor

/-!
Why every run ends. What comes of a rule, of a part of its body or of a repetition is told from what
comes of things with fewer levels to go, of smaller parts, or of the same repetition further on in
the source. Neither the rules nor a fault that spoils the run matter.
-/
namespace RankedGrammar

mutual

/-- The number of parts of a body; a repetition counts for its loop as well. -/
def Expr.size : Expr → Nat
  | .seq es => Expr.sizes es + 1
  | .alt es => Expr.sizes es + 1
  | .all es => Expr.sizes es + 1
  | .any es => Expr.sizes es + 1
  | .many e => e.size + 2
  | .tally e _ => e.size + 2
  | .counted e _ => e.size + 2
  | .not e => e.size + 1
  | .ifElse e yes no => e.size + yes.size + no.size + 1
  | _ => 1

def Expr.sizes : List Expr → Nat
  | [] => 0
  | e :: es => e.size + Expr.sizes es

end

theorem Expr.size_pos (e : Expr) : 0 < e.size := by
  cases e <;> exact Nat.succ_pos _

theorem Expr.size_le_sizes {e : Expr} {es : List Expr} (h : e ∈ es) : e.size ≤ Expr.sizes es := by
  induction es with
  | nil => cases h
  | cons e' es ih =>
    rw [sizes]
    cases List.mem_cons.1 h with
    | inl heq => exact heq ▸ Nat.le_add_right _ _
    | inr hin => exact Nat.le_trans (ih hin) (Nat.le_add_left _ _)

/-- A rule, a part of a body or a repetition after so many turns, to be run on a node with so many
levels to go. -/
inductive Task where
  | rule (left : Nat) (id : NodeId) (s : RunState)
  | part (left : Nat) (id : NodeId) (e : Expr) (s : RunState)
  | turns (left : Nat) (id : NodeId) (e : Expr) (count : Nat) (s : RunState)

namespace Task

/-- A rule or a part succeeds or fails, a repetition counts its turns. -/
abbrev Outcome : Task → Type
  | rule .. => Bool × RunState
  | part .. => Bool × RunState
  | turns .. => Nat × RunState

def outcome (ctx : Context) : (t : Task) → t.Outcome
  | .rule left id s => ctx.attempt left id s
  | .part left id e s => e.step ctx (ctx.attempt left) id s
  | .turns left id e count s =>
    Step.turns id (e.step ctx (ctx.attempt left) id) (ctx.source.size - s.cursor id + 1) count s

/-- What comes of the task, given what comes of the tasks that it leads to. A repetition goes on for
as long as its turns succeed and advance. -/
def answer (ctx : Context) (ask : (t : Task) → t.Outcome) : (t : Task) → t.Outcome
  | .rule 0 id s => if s.fault.isSome then (false, s) else (false, s.giveUp ctx id)
  | .rule (left + 1) id s =>
    if s.fault.isSome then (false, s)
    else
      match ctx.rules.rule? (s.node id).name with
      | none => (false, s.noteUnresolved ctx id)
      | some body => RunState.leave id (ask (.part left id body (s.enter id (ctx.limit - left))))
  | .part left id e s =>
    let rule : NodeId → Step := fun child s => ask (.rule left child s)
    let part : Expr → Step := fun e s => ask (.part left id e s)
    match e with
    | .seq es => Step.sequence id (es.map part) s
    | .alt es => Step.alternation id (es.map part) s
    | .all es => Step.all (es.map part) s
    | .any es => Step.any (es.map part) s
    | .not e => Step.negate (part e) s
    | .ifElse e yes no => Step.ifElse (part e) (part yes) (part no) s
    | .many e => (true, (ask (.turns left id e 0 s)).2)
    | .tally e least =>
      match ask (.turns left id e 0 s) with
      | (count, s) => (least ≤ count, s.report (.tally (s.node id).name count (s.cursor id)))
    | .counted e test =>
      match ask (.turns left id e 0 s) with
      | (count, s) => (test count, s)
    -- calls and terminals have no parts
    | e => e.step ctx rule id s
  | .turns left id e count s =>
    match ask (.part left id e s) with
    | (matched, s') =>
      if matched && s.cursor id < s'.cursor id then ask (.turns left id e (count + 1) s')
      else (count, Step.takeBack id (s.cursor id) (s.node id).children.length s')

/-- The node of the task is in a table that is well formed, with its cursor in the source. -/
def Sound (src : Source) : Task → Prop
  | .rule _ id s => s.AtWork src id
  | .part _ id _ s => s.AtWork src id
  | .turns _ id _ _ s => s.AtWork src id

/-- The levels to go, the size of the body and the bytes left. -/
def measure (src : Source) : Task → Nat × Nat × Nat
  | .rule left _ _ => (left, 0, 0)
  | .part left id e s => (left, e.size, src.size - s.cursor id)
  | .turns left id e _ s => (left, e.size + 1, src.size - s.cursor id)

/-- Fewer levels to go, or as many and a smaller body, or the same of both and fewer bytes left. -/
def Below (src : Source) : Task → Task → Prop :=
  InvImage (Prod.Lex (· < ·) (Prod.Lex (· < ·) (· < ·))) (measure src)

theorem wellFounded_below (src : Source) : WellFounded (Below src) :=
  InvImage.wf _ (WellFounded.prod_lex Nat.lt_wfRel.wf
    (WellFounded.prod_lex Nat.lt_wfRel.wf Nat.lt_wfRel.wf))

end Task

namespace RunState.AtWork

variable {src : Source} {id : Nat} {s s' : RunState}

theorem congr (h : s.AtWork src id) (htree : s'.tree = s.tree) : s'.AtWork src id := by
  obtain ⟨tree, counters, fault, journal⟩ := s'
  subst htree
  exact ⟨h.wellFormed, h.lt_size, h.cursor_le⟩

theorem moveTo (h : s.AtWork src id) {point : Nat} (hsize : point ≤ src.size) :
    (s.moveTo id point).AtWork src id where
  wellFormed := h.wellFormed.modify rfl rfl
  lt_size := (size_modify s id _).symm ▸ h.lt_size
  cursor_le := (s.cursor_moveTo_self point h.lt_size).symm ▸ hsize

theorem keepChildren (h : s.AtWork src id) (count : Nat) :
    (s.keepChildren id count).AtWork src id where
  wellFormed := h.wellFormed.sublistChildren h.lt_size rfl (List.take_sublist _ _)
  lt_size := (size_modify s id _).symm ▸ h.lt_size
  cursor_le := by
    rw [cursor, RunState.keepChildren, node_modify_self s _ h.lt_size]
    exact h.cursor_le

end RunState.AtWork

namespace Step

variable {src : Source} {id : Nat} {r : Step} {s : RunState}

section Congr

variable {P : RunState → Prop} {α : Type} {f g : α → Step} {es : List α}

theorem ifElse_congr {r r' yes yes' no no' : Step} (hkeeps : Keeps P r)
    (h : ∀ s, P s → r' s = r s) (hyes : ∀ s, P s → yes' s = yes s) (hno : ∀ s, P s → no' s = no s)
    (hs : P s) : ifElse r' yes' no' s = ifElse r yes no s := by
  have hnext := hkeeps s hs
  unfold ifElse
  rw [h s hs]
  generalize r s = out at hnext ⊢
  obtain ⟨ok, s'⟩ := out
  cases ok with
  | true => exact hyes s' hnext
  | false => exact hno s' hnext

theorem all_congr (hkeeps : ∀ e ∈ es, Keeps P (f e)) (h : ∀ e ∈ es, ∀ s, P s → g e s = f e s)
    (hs : P s) : all (es.map g) s = all (es.map f) s := by
  induction es generalizing s with
  | nil => rfl
  | cons e es ih =>
    obtain ⟨hfirst, hothers⟩ := List.forall_mem_cons.1 hkeeps
    obtain ⟨heq, heqs⟩ := List.forall_mem_cons.1 h
    rw [List.map_cons, List.map_cons, all_cons, all_cons]
    exact ifElse_congr hfirst heq (fun _ hs' => ih hothers heqs hs') (fun _ _ => rfl) hs

theorem any_congr (hkeeps : ∀ e ∈ es, Keeps P (f e)) (h : ∀ e ∈ es, ∀ s, P s → g e s = f e s)
    (hs : P s) : any (es.map g) s = any (es.map f) s := by
  induction es generalizing s with
  | nil => rfl
  | cons e es ih =>
    obtain ⟨hfirst, hothers⟩ := List.forall_mem_cons.1 hkeeps
    obtain ⟨heq, heqs⟩ := List.forall_mem_cons.1 h
    rw [List.map_cons, List.map_cons, any_cons, any_cons]
    exact ifElse_congr hfirst heq (fun _ _ => rfl) (fun _ hs' => ih hothers heqs hs') hs

theorem trials_congr {point base : Nat} (hmove : ∀ s, P s → P (s.moveTo id point))
    (hcut : ∀ s, P s → P (s.keepChildren id base)) (hkeeps : ∀ e ∈ es, Keeps P (f e))
    (h : ∀ e ∈ es, ∀ s, P s → g e s = f e s) (hs : P s) :
    trials id point base (es.map g) s = trials id point base (es.map f) s := by
  induction es generalizing s with
  | nil => rfl
  | cons e es ih =>
    obtain ⟨hfirst, hothers⟩ := List.forall_mem_cons.1 hkeeps
    obtain ⟨heq, heqs⟩ := List.forall_mem_cons.1 h
    have hnext := hfirst _ (hmove s hs)
    rw [List.map_cons, List.map_cons, trials_cons, trials_cons, heq _ (hmove s hs)]
    dsimp only
    rw [ih hothers heqs (hcut _ hnext)]

theorem alternation_congr (hkeeps : ∀ e ∈ es, Keeps (RunState.AtWork src id) (f e))
    (h : ∀ e ∈ es, ∀ s : RunState, s.AtWork src id → g e s = f e s) (hs : s.AtWork src id) :
    alternation id (es.map g) s = alternation id (es.map f) s := by
  have hnoted : s.noteAlternation.AtWork src id := hs.congr rfl
  unfold alternation
  rw [trials_congr (fun _ hs' => hs'.moveTo hs.cursor_le) (fun _ hs' => hs'.keepChildren _) hkeeps h
    hnoted]

end Congr

theorem call_congr {ctx : Context} {run run' : NodeId → Step} {c : Call}
    (h : run' s.tree.size (s.grow ctx id c.rule c.role) =
      run s.tree.size (s.grow ctx id c.rule c.role)) :
    call ctx run' id c s = call ctx run id c s := by
  unfold call
  rw [h]

theorem turns_succ (id : NodeId) (r : Step) (fuel count : Nat) (s : RunState) :
    turns id r (fuel + 1) count s =
      if (r s).1 && s.cursor id < (r s).2.cursor id then turns id r fuel (count + 1) (r s).2
      else (count, takeBack id (s.cursor id) (s.node id).children.length (r s).2) :=
  rfl

/-- Every turn that counts moves on in the source, so more turns than there are bytes left are never
asked for. -/
theorem turns_eq_of_lt (h : Keeps (RunState.AtWork src id) r) {fuel fuel' : Nat} (count : Nat)
    (hs : s.AtWork src id) (hfuel : src.size - s.cursor id < fuel)
    (hfuel' : src.size - s.cursor id < fuel') :
    turns id r fuel count s = turns id r fuel' count s := by
  induction fuel generalizing fuel' count s with
  | zero => exact absurd hfuel (Nat.not_lt_zero _)
  | succ fuel ih =>
    cases fuel' with
    | zero => exact absurd hfuel' (Nat.not_lt_zero _)
    | succ fuel' =>
      have hnext := h s hs
      rw [turns_succ, turns_succ]
      split
      · next hon =>
        have hmoved := of_decide_eq_true (Bool.and_eq_true_iff.1 hon).2
        have hle := hnext.cursor_le
        exact ih (count + 1) hnext (by omega) (by omega)
      · rfl

theorem turns_le (h : Keeps (RunState.AtWork src id) r) (fuel count : Nat) (hs : s.AtWork src id) :
    (turns id r fuel count s).1 ≤ count + (src.size - s.cursor id) := by
  induction fuel generalizing count s with
  | zero => exact Nat.le_add_right _ _
  | succ fuel ih =>
    have hnext := h s hs
    rw [turns_succ]
    split
    · next hon =>
      have hmoved := of_decide_eq_true (Bool.and_eq_true_iff.1 hon).2
      have hle := hnext.cursor_le
      have hrest := ih (count + 1) hnext
      omega
    · exact Nat.le_add_right _ _

/-- After `count` turns a repetition without a bound runs its body so many times more, until a turn
fails or stays where it is. -/
inductive Repeats (id : NodeId) (r : Step) : Nat → Nat → RunState → Nat × RunState → Prop where
  | last {count : Nat} {s : RunState} (h : ¬ ((r s).1 = true ∧ s.cursor id < (r s).2.cursor id)) :
      Repeats id r 1 count s
        (count, takeBack id (s.cursor id) (s.node id).children.length (r s).2)
  | turn {runs count : Nat} {s : RunState} {out : Nat × RunState} (hok : (r s).1 = true)
      (hon : s.cursor id < (r s).2.cursor id) (hrest : Repeats id r runs (count + 1) (r s).2 out) :
      Repeats id r (runs + 1) count s out

theorem repeats_turns (h : Keeps (RunState.AtWork src id) r) {fuel : Nat}
    (count : Nat) (hs : s.AtWork src id) (hfuel : src.size - s.cursor id < fuel) :
    ∃ runs, runs + count = (turns id r fuel count s).1 + 1 ∧
      Repeats id r runs count s (turns id r fuel count s) := by
  induction fuel generalizing count s with
  | zero => exact absurd hfuel (Nat.not_lt_zero _)
  | succ fuel ih =>
    have hnext := h s hs
    rw [turns_succ]
    split
    · next hon =>
      obtain ⟨hok, hmoved⟩ := Bool.and_eq_true_iff.1 hon
      have hmoved := of_decide_eq_true hmoved
      have hle := hnext.cursor_le
      obtain ⟨runs, hruns, hrest⟩ := ih (count + 1) hnext (by omega)
      exact ⟨runs + 1, by omega, .turn hok hmoved hrest⟩
    · next hoff =>
      refine ⟨1, Nat.add_comm _ _, .last fun ⟨hok, hmoved⟩ => hoff ?_⟩
      exact Bool.and_eq_true_iff.2 ⟨hok, decide_eq_true hmoved⟩

theorem Repeats.unique {runs runs' count : Nat} {out out' : Nat × RunState}
    (h : Repeats id r runs count s out) (h' : Repeats id r runs' count s out') :
    runs' = runs ∧ out' = out := by
  induction h generalizing runs' with
  | last hoff =>
    cases h' with
    | last _ => exact ⟨rfl, rfl⟩
    | turn hok hon _ => exact absurd ⟨hok, hon⟩ hoff
  | turn hok hon _ ih =>
    cases h' with
    | last hoff => exact absurd ⟨hok, hon⟩ hoff
    | turn _ _ hrest =>
      obtain ⟨rfl, rfl⟩ := ih hrest
      exact ⟨rfl, rfl⟩

end Step

namespace Task

variable {ctx : Context} {ask : (t : Task) → t.Outcome} {left id : Nat} {s : RunState}

theorem answer_rule (ctx : Context) (ask : (t : Task) → t.Outcome) (left id : Nat) (s : RunState) :
    (Task.rule (left + 1) id s).answer ctx ask =
      if s.fault.isSome then (false, s)
      else
        match ctx.rules.rule? (s.node id).name with
        | none => (false, s.noteUnresolved ctx id)
        | some body =>
          RunState.leave id (ask (.part left id body (s.enter id (ctx.limit - left)))) :=
  rfl

theorem answer_tally (ctx : Context) (ask : (t : Task) → t.Outcome) (left id : Nat) (e : Expr)
    (least : Nat) (s : RunState) :
    (Task.part left id (.tally e least) s).answer ctx ask =
      match ask (.turns left id e 0 s) with
      | (count, s) =>
        (decide (least ≤ count), s.report (.tally (s.node id).name count (s.cursor id))) :=
  rfl

theorem answer_counted (ctx : Context) (ask : (t : Task) → t.Outcome) (left id : Nat) (e : Expr)
    (test : Nat → Bool) (s : RunState) :
    (Task.part left id (.counted e test) s).answer ctx ask =
      match ask (.turns left id e 0 s) with
      | (count, s) => (test count, s) :=
  rfl

theorem answer_turns (ctx : Context) (ask : (t : Task) → t.Outcome) (left id : Nat) (e : Expr)
    (count : Nat) (s : RunState) :
    (Task.turns left id e count s).answer ctx ask =
      match ask (.part left id e s) with
      | (matched, s') =>
        if matched && s.cursor id < s'.cursor id then ask (.turns left id e (count + 1) s')
        else (count, Step.takeBack id (s.cursor id) (s.node id).children.length s') :=
  rfl

theorem call_eq (hs : s.AtWork ctx.source id) (c : Call)
    (hask : ∀ child s', s'.AtWork ctx.source child →
      ask (.rule left child s') = ctx.attempt left child s') :
    Step.call ctx (fun child s => ask (.rule left child s)) id c s =
      Step.call ctx (ctx.attempt left) id c s :=
  Step.call_congr (hask _ _ (hs.grow ctx c))

/-- The answer to a part, given those to its own parts, to the rules one level down, and to its
loop. -/
theorem answer_part (hs : s.AtWork ctx.source id) (e : Expr)
    (hrule : ∀ child s', s'.AtWork ctx.source child →
      ask (.rule left child s') = ctx.attempt left child s')
    (hpart : ∀ e' : Expr, e'.size < e.size → ∀ s' : RunState, s'.AtWork ctx.source id →
      ask (.part left id e' s') = e'.step ctx (ctx.attempt left) id s')
    (hturns : ∀ e' : Expr, e'.size + 1 < e.size →
      ask (.turns left id e' 0 s) = (Task.turns left id e' 0 s).outcome ctx) :
    (Task.part left id e s).answer ctx ask = e.step ctx (ctx.attempt left) id s := by
  have hkeeps := Context.atWork_step ctx left id
  have hparts : ∀ es : List Expr, Expr.sizes es < e.size → ∀ e' ∈ es,
      ∀ s' : RunState, s'.AtWork ctx.source id →
        ask (.part left id e' s') = e'.step ctx (ctx.attempt left) id s' := fun es hes e' he' =>
    hpart e' (Nat.lt_of_le_of_lt (Expr.size_le_sizes he') hes)
  have hsteps := fun es => Expr.steps_eq ctx (ctx.attempt left) id es
  cases e with
  | ref rule => exact call_eq hs (.ref rule) hrule
  | named rule caption => exact call_eq hs (.named rule caption) hrule
  | lit t => exact call_eq hs (.lit t) hrule
  | seq es =>
    have hall := Step.all_congr (fun e' _ => hkeeps e') (hparts es (Nat.lt_succ_self _)) hs
    rw [Expr.step, hsteps]
    exact congrArg (Step.rewind id (s.cursor id)) hall
  | alt es =>
    rw [Expr.step, hsteps]
    exact Step.alternation_congr (fun e' _ => hkeeps e') (hparts es (Nat.lt_succ_self _)) hs
  | all es =>
    rw [Expr.step, hsteps]
    exact Step.all_congr (fun e' _ => hkeeps e') (hparts es (Nat.lt_succ_self _)) hs
  | any es =>
    rw [Expr.step, hsteps]
    exact Step.any_congr (fun e' _ => hkeeps e') (hparts es (Nat.lt_succ_self _)) hs
  | not e =>
    have he := hpart e (Nat.lt_succ_self _) s hs
    show Step.negate (fun s => ask (.part left id e s)) s = _
    rw [Expr.step, Step.negate, Step.negate, he]
  | ifElse e yes no =>
    have hsmaller : e.size < (Expr.ifElse e yes no).size ∧ yes.size < (Expr.ifElse e yes no).size ∧
        no.size < (Expr.ifElse e yes no).size := by
      simp only [Expr.size]
      omega
    exact Step.ifElse_congr (hkeeps e) (hpart e hsmaller.1) (hpart yes hsmaller.2.1)
      (hpart no hsmaller.2.2) hs
  | many e =>
    show (true, (ask (.turns left id e 0 s)).2) = _
    rw [hturns e (Nat.lt_succ_self _)]
    rfl
  | tally e least =>
    rw [answer_tally, hturns e (Nat.lt_succ_self _)]
    rfl
  | counted e test =>
    rw [answer_counted, hturns e (Nat.lt_succ_self _)]
    rfl
  | _ => rfl

theorem answer_eq {t : Task} (ht : t.Sound ctx.source)
    (hask : ∀ t' : Task, t'.Sound ctx.source → t'.Below ctx.source t → ask t' = t'.outcome ctx) :
    t.answer ctx ask = t.outcome ctx := by
  cases t with
  | rule left id s =>
    cases left with
    | zero => rfl
    | succ left =>
      show (Task.rule (left + 1) id s).answer ctx ask = ctx.attempt (left + 1) id s
      rw [answer_rule, Context.attempt_succ]
      cases ctx.rules.rule? (s.node id).name with
      | none => rfl
      | some body =>
        have hbody : ask (.part left id body (s.enter id (ctx.limit - left))) =
            body.step ctx (ctx.attempt left) id (s.enter id (ctx.limit - left)) :=
          hask _ (RunState.AtWork.congr ht rfl) (.left _ _ (Nat.lt_succ_self left))
        dsimp only
        rw [hbody]
  | part left id e s =>
    refine answer_part ht e (fun child s' hs' => ?_) (fun e' he' s' hs' => ?_) fun e' he' => ?_
    · exact hask (.rule left child s') hs' (.right _ (.left _ _ e.size_pos))
    · exact hask (.part left id e' s') hs' (.right _ (.left _ _ he'))
    · exact hask (.turns left id e' 0 s) ht (.right _ (.left _ _ he'))
  | turns left id e count s =>
    have hstep := Context.atWork_step ctx left id e
    have hturn : ask (.part left id e s) = e.step ctx (ctx.attempt left) id s :=
      hask _ ht (.right _ (.left _ _ (Nat.lt_succ_self _)))
    have hnext := hstep s ht
    show (Task.turns left id e count s).answer ctx ask =
      Step.turns id (e.step ctx (ctx.attempt left) id) (ctx.source.size - s.cursor id + 1) count s
    rw [answer_turns, hturn, Step.turns_succ]
    generalize e.step ctx (ctx.attempt left) id s = out at hnext ⊢
    obtain ⟨matched, s'⟩ := out
    dsimp only at hnext ⊢
    split
    · next hon =>
      have hmoved := of_decide_eq_true (Bool.and_eq_true_iff.1 hon).2
      have hle := hnext.cursor_le
      have hrest : ask (.turns left id e (count + 1) s') =
          (Task.turns left id e (count + 1) s').outcome ctx :=
        hask _ hnext (.right _ (.right _ (by omega)))
      rw [hrest]
      exact Step.turns_eq_of_lt hstep (count + 1) hnext (Nat.lt_succ_self _) (by omega)
    · rfl

end Task

namespace Context

/-- Every run ends, spoilt or not. What comes of a task depends on what comes of those below it
alone, where a repetition goes on without a bound; so it is all that can come of it. And a
repetition runs its body at most once for each byte left and once more. -/
theorem answers_wellFounded (ctx : Context) :
    WellFounded (Task.Below ctx.source) ∧
    (∀ (ask : (t : Task) → t.Outcome) (t : Task), t.Sound ctx.source →
      (∀ t' : Task, t'.Sound ctx.source → t'.Below ctx.source t → ask t' = t'.outcome ctx) →
        t.answer ctx ask = t.outcome ctx) ∧
    (∀ ask : (t : Task) → t.Outcome, (∀ t : Task, t.Sound ctx.source → ask t = t.answer ctx ask) →
      ∀ t : Task, t.Sound ctx.source → ask t = t.outcome ctx) ∧
    (∀ rule, (Task.rule ctx.limit Tree.root (.start ctx rule)).Sound ctx.source) ∧
    ∀ (left id : Nat) (e : Expr) (s : RunState), s.AtWork ctx.source id →
      ∃ runs, runs ≤ ctx.source.size - s.cursor id + 1 ∧ ∀ runs' out,
        Step.Repeats id (e.step ctx (ctx.attempt left) id) runs' 0 s out ↔
          runs' = runs ∧ out = Step.iterate ctx id (e.step ctx (ctx.attempt left) id) s := by
  refine ⟨Task.wellFounded_below ctx.source, fun ask t => Task.answer_eq, fun ask hask t => ?_,
    atWork_start ctx, fun left id e s hs => ?_⟩
  · induction t using (Task.wellFounded_below ctx.source).induction with
    | _ t ih =>
      intro ht
      exact (hask t ht).trans (Task.answer_eq ht fun t' ht' hlt => ih t' hlt ht')
  · have hstep := atWork_step ctx left id e
    obtain ⟨runs, hcount, hruns⟩ := Step.repeats_turns hstep 0 hs
      (Nat.lt_add_one (ctx.source.size - s.cursor id))
    have hle := Step.turns_le hstep (ctx.source.size - s.cursor id + 1) 0 hs
    refine ⟨runs, by omega, fun runs' out => ⟨hruns.unique, ?_⟩⟩
    rintro ⟨rfl, rfl⟩
    exact hruns

/-- A rule that calls itself where it begins, after a repetition that takes nothing, and another one
that is not defined. -/
def endless : Context where
  source := .ofString "ab"
  rules := .merge .empty .empty (.ofList [
    ("ROOT", .alt [.seq [.many (.text ""), .ref "ROOT"], .ref "MISSING"])])
  limit := 3

/-- Whoever follows the rules finds the run spoilt, and the repetition over after one turn. -/
theorem answers_wellFounded_endless :
    let t := Task.rule 3 Tree.root (.start endless "ROOT")
    (∀ ask : (t : Task) → t.Outcome,
      (∀ t : Task, t.Sound endless.source → ask t = t.answer endless ask) →
        ∃ s, ask t = (false, s) ∧ s.fault = some ⟨3, "ROOT"⟩) ∧
    ∃ out, Step.Repeats Tree.root ((Expr.text "").step endless (endless.attempt 2) Tree.root) 1 0
      (.start endless "ROOT") out ∧ out.1 = 0 := by
  obtain ⟨-, -, hunique, hsound, hturns⟩ := answers_wellFounded endless
  constructor
  · intro ask hask
    have hrun : (endless.attempt 3 Tree.root (.start endless "ROOT")).1 = false ∧
        (endless.attempt 3 Tree.root (.start endless "ROOT")).2.fault = some ⟨3, "ROOT"⟩ := by
      decide +kernel
    have heq := hunique ask hask _ (hsound "ROOT")
    refine ⟨_, heq.trans (Prod.ext hrun.1 rfl), hrun.2⟩
  · obtain ⟨runs, -, hruns⟩ := hturns 2 Tree.root (.text "") _ (atWork_start endless "ROOT")
    have hlast : Step.Repeats Tree.root ((Expr.text "").step endless (endless.attempt 2) Tree.root)
        1 0 (.start endless "ROOT") _ := .last (by decide +kernel)
    obtain ⟨rfl, -⟩ := (hruns _ _).1 hlast
    exact ⟨_, (hruns 1 _).2 ⟨rfl, rfl⟩, by decide +kernel⟩

end Context

end RankedGrammar
