import RankedGrammar.Proofs.Match.Collapsed
import RankedGrammar.Proofs.Walk.Routine

/-!
Routines under observation. An observed routine does what the routine does, and puts down the walk
before each of its requests and at its end; an observed visitor also puts down of which nodes it was
told. At every moment put down so, in whatever visit, the walk is exact, and the visitor has been told
of the nodes eaten, each in its turn.
-/
namespace RankedGrammar

/-- The walk at some moment, and the node that the visitor was just told of. -/
structure Moment where
  walk : Walk
  told : Option NodeId

/-- What was put down, the last moment first. -/
abbrev Log := List Moment

/-- The nodes that the visitor was told of, the first one first. -/
def Log.told (log : Log) : List NodeId := (log.filterMap Moment.told).reverse

variable {σ : Type} {t : Tree} {w : Walk}

namespace Routine

/-- The same routine, which adds to a log. -/
def observed : Routine σ → Log → Routine (σ × Log)
  | done data, log => look fun w => done (data, ⟨w, none⟩ :: log)
  | look next, log => look fun w => (next w).observed (⟨w, none⟩ :: log)
  | skip next, log => look fun w => skip fun id => (next id).observed (⟨w, none⟩ :: log)
  | eat data next, log =>
    look fun w => eat (data, ⟨w, none⟩ :: log) fun id d => (next id d.1).observed d.2
  | execute data next, log =>
    look fun w => execute (data, ⟨w, none⟩ :: log) fun n d => (next n d.1).observed d.2
  | consume name data next, log =>
    look fun w => consume name (data, ⟨w, none⟩ :: log) fun id d => (next id d.1).observed d.2
  | fork data next, log =>
    look fun w => fork (data, ⟨w, none⟩ :: log) fun n d => (next n d.1).observed d.2
  | restart next, log => look fun w => restart (next.observed (⟨w, none⟩ :: log))
  | collapse next, log =>
    look fun w => collapse fun counts => (next counts).observed (⟨w, none⟩ :: log)

end Routine

/-- The same visitor, which adds to a log. -/
def Visitor.observed (v : Visitor σ) : Visitor (σ × Log) :=
  fun id d w => (v id d.1 w).observed (⟨w, some id⟩ :: d.2)

theorem Visitor.observed_apply (v : Visitor σ) (id : NodeId) (data : σ) (log : Log) (w : Walk) :
    v.observed id (data, log) w = (v id data w).observed (⟨w, some id⟩ :: log) := rfl

/-- One eater does what the other does, and adds to a log. -/
def Eater.Observes (eat : Eater σ) (eat' : Eater (σ × Log)) : Prop :=
  ∀ w data log, ∃ log', eat' w (data, log) =
    ((eat w data).1, (eat w data).2.1, (eat w data).2.2, log')

namespace Eater.Observes

variable {eat : Eater σ} {eat' : Eater (σ × Log)}

theorem execute (h : eat.Observes eat') (fuel : Nat) (w : Walk) (data : σ) (log : Log) :
    ∃ log', eat'.execute fuel w (data, log) =
      ((eat.execute fuel w data).1, (eat.execute fuel w data).2.1,
        (eat.execute fuel w data).2.2, log') := by
  induction fuel generalizing w data log with
  | zero => exact ⟨log, rfl⟩
  | succ fuel ih =>
    obtain ⟨log₁, heat⟩ := h w data log
    rw [Eater.execute, Eater.execute, heat]
    obtain ⟨id, w₁, data₁⟩ := eat w data
    cases id with
    | none => exact ⟨log₁, rfl⟩
    | some id =>
      obtain ⟨log', hrest⟩ := ih w₁ data₁ log₁
      refine ⟨log', ?_⟩
      dsimp only
      rw [hrest]

theorem consume (h : eat.Observes eat') (name : String) (fuel : Nat) (w : Walk) (data : σ)
    (log : Log) : ∃ log', eat'.consume name fuel w (data, log) =
      ((eat.consume name fuel w data).1, (eat.consume name fuel w data).2.1,
        (eat.consume name fuel w data).2.2, log') := by
  induction fuel generalizing w data log with
  | zero => exact ⟨log, rfl⟩
  | succ fuel ih =>
    obtain ⟨log₁, heat⟩ := h w data log
    rw [Eater.consume, Eater.consume, heat]
    obtain ⟨id, w₁, data₁⟩ := eat w data
    cases id with
    | none => exact ⟨log₁, rfl⟩
    | some id =>
      by_cases hname : (w₁.tree.node id).name = name
      · refine ⟨log₁, ?_⟩
        simp only [hname, if_true]
      · obtain ⟨log', hrest⟩ := ih w₁ data₁ log₁
        refine ⟨log', ?_⟩
        simp only [hname, if_false]
        exact hrest

/-- An observed routine is the routine, seen by an eater that observes the other. -/
theorem run (h : eat.Observes eat') (fuel : Nat) (r : Routine σ) (w : Walk) (log : Log) :
    ∃ log', (r.observed log).run eat' fuel w =
      ((r.run eat fuel w).1, (r.run eat fuel w).2, log') := by
  induction r generalizing w log with
  | done data => exact ⟨_, rfl⟩
  | look next ih => exact ih w w _
  | skip next ih => exact ih _ _ _
  | eat data next ih =>
    obtain ⟨log₁, heat⟩ := h w data (⟨w, none⟩ :: log)
    obtain ⟨log', hrest⟩ := ih (eat w data).1 (eat w data).2.2 (eat w data).2.1 log₁
    refine ⟨log', ?_⟩
    rw [Routine.observed, Routine.run, Routine.run, heat]
    exact hrest
  | execute data next ih =>
    obtain ⟨log₁, heat⟩ := h.execute fuel w data (⟨w, none⟩ :: log)
    obtain ⟨log', hrest⟩ := ih (eat.execute fuel w data).1 (eat.execute fuel w data).2.2
      (eat.execute fuel w data).2.1 log₁
    refine ⟨log', ?_⟩
    rw [Routine.observed, Routine.run, Routine.run, heat]
    exact hrest
  | consume name data next ih =>
    obtain ⟨log₁, heat⟩ := h.consume name fuel w data (⟨w, none⟩ :: log)
    obtain ⟨log', hrest⟩ := ih (eat.consume name fuel w data).1 (eat.consume name fuel w data).2.2
      (eat.consume name fuel w data).2.1 log₁
    refine ⟨log', ?_⟩
    rw [Routine.observed, Routine.run, Routine.run, heat]
    exact hrest
  | fork data next ih =>
    obtain ⟨log₁, heat⟩ := h.execute fuel w data (⟨w, none⟩ :: log)
    obtain ⟨log', hrest⟩ := ih (eat.execute fuel w data).1 (eat.execute fuel w data).2.2 w log₁
    refine ⟨log', ?_⟩
    rw [Routine.observed, Routine.run, Routine.run, heat]
    exact hrest
  | restart next ih => exact ih _ _
  | collapse next ih => exact ih _ _ _

end Eater.Observes

namespace Walk

theorem observes_eatWithin (v : Visitor σ) (fuel levels : Nat) :
    Eater.Observes (eatWithin v fuel levels) (eatWithin v.observed fuel levels) := by
  induction levels with
  | zero => exact fun w data log => ⟨log, rfl⟩
  | succ levels ih =>
    intro w data log
    rw [eatWithin, eatWithin]
    cases hadvance : w.advance true with
    | mk id w' =>
      cases id with
      | none => exact ⟨log, rfl⟩
      | some id =>
        obtain ⟨log', hrun⟩ := ih.run fuel (v id data w') w' (⟨w', some id⟩ :: log)
        refine ⟨log', ?_⟩
        dsimp only
        rw [Visitor.observed_apply, hrun]

theorem perform_observed (w : Walk) (v : Visitor σ) (r : Routine σ) (log : Log) :
    (w.perform v.observed (r.observed log)).1 = (w.perform v r).1 ∧
      (w.perform v.observed (r.observed log)).2.1 = (w.perform v r).2 := by
  obtain ⟨log', hrun⟩ := (observes_eatWithin v w.places w.places).run w.places r w log
  unfold perform
  rw [hrun]
  exact ⟨rfl, rfl⟩

end Walk

/-- The walk is exact, now and at every moment of the log, and the visitor was told up to then of
the nodes eaten up to then. -/
structure Recorded (t : Tree) (w : Walk) (log : Log) : Prop where
  exact : w.Exact t
  told : w.toldOf = log.told
  moments : ∀ m before, m :: before <:+ log →
    m.walk.Exact t ∧ m.walk.toldOf = Log.told (m :: before)

namespace Recorded

theorem start (hwalk : t.Unwalked) (language : String) : Recorded t (.start t language) [] where
  exact := Walk.exact_start hwalk language
  told := rfl
  moments m before h := by
    have hnil := List.suffix_nil.1 h
    cases hnil

theorem cons {w' : Walk} {log : Log} {told : Option NodeId} (h : Recorded t w log)
    (hexact : w'.Exact t) (htold : w'.toldOf = Log.told (⟨w', told⟩ :: log)) :
    Recorded t w' (⟨w', told⟩ :: log) where
  exact := hexact
  told := htold
  moments m before hm := by
    cases List.suffix_cons_iff.1 hm with
    | inl heq =>
      cases heq
      exact ⟨hexact, htold⟩
    | inr hm => exact h.moments m before hm

theorem look {log : Log} (h : Recorded t w log) : Recorded t w (⟨w, none⟩ :: log) :=
  h.cons h.exact h.told

theorem advance (ht : t.WellFormed) {log : Log} (h : Recorded t w log) :
    (w.advance true = (none, w) ∨ ∃ id w', w.advance true = (some id, w') ∧
      Recorded t w' (⟨w', some id⟩ :: log)) ∧ Recorded t (w.advance false).2 log := by
  by_cases hleft : w.left t = 0
  · rw [h.exact.advance_none ht hleft, h.exact.advance_none ht hleft]
    exact ⟨.inl rfl, h⟩
  constructor
  · obtain ⟨id, -, hadvance, hexact, -⟩ := h.exact.advance_some ht (by omega) true
    have htold : (w.handOut id true).toldOf = Log.told (⟨w.handOut id true, some id⟩ :: log) := by
      have hcons : Log.told (⟨w.handOut id true, some id⟩ :: log) = log.told ++ [id] := by
        simp [Log.told]
      have hhanded : (w.handOut id true).toldOf = w.toldOf ++ [id] := by
        simp [Walk.handOut, Walk.toldOf]
      rw [hcons, hhanded, h.told]
    exact .inr ⟨id, _, hadvance, h.cons hexact htold⟩
  · obtain ⟨id, -, hadvance, hexact, -⟩ := h.exact.advance_some ht (by omega) false
    have hhanded : (w.handOut id false).toldOf = w.toldOf := by
      simp [Walk.handOut, Walk.toldOf]
    rw [hadvance]
    exact ⟨hexact, hhanded.trans h.told, h.moments⟩

end Recorded

def Eater.Records (t : Tree) (eat : Eater (σ × Log)) : Prop :=
  ∀ w d, Recorded t w d.2 → Recorded t (eat w d).2.1 (eat w d).2.2.2

namespace Eater.Records

variable {eat : Eater (σ × Log)}

theorem preserves (h : eat.Records t) : eat.Preserves fun w d => Recorded t w d.2 := h

theorem run (ht : t.WellFormed) (h : eat.Records t) (fuel : Nat) {r : Routine σ} (hr : r.Forward)
    {log : Log} (hw : Recorded t w log) :
    Recorded t ((r.observed log).run eat fuel w).1 ((r.observed log).run eat fuel w).2.2 := by
  induction r generalizing w log with
  | done data => exact hw.look
  | look next ih => exact ih w (hr w) hw.look
  | skip next ih => exact ih _ (hr _) (hw.look.advance ht).2
  | eat data next ih => exact ih _ _ (hr _ _) (h w (data, ⟨w, none⟩ :: log) hw.look)
  | execute data next ih =>
    exact ih _ _ (hr _ _) (h.preserves.execute fuel (data, ⟨w, none⟩ :: log) hw.look)
  | consume name data next ih =>
    exact ih _ _ (hr _ _) (h.preserves.consume name fuel (data, ⟨w, none⟩ :: log) hw.look)
  | fork data next => exact absurd hr id
  | restart next => exact absurd hr id
  | collapse next => exact absurd hr id

end Eater.Records

namespace Walk

variable {v : Visitor σ}

theorem records_eatWithin (ht : t.WellFormed) (hv : v.Forward) (fuel levels : Nat) :
    Eater.Records t (eatWithin v.observed fuel levels) := by
  induction levels with
  | zero => exact fun w d hw => hw
  | succ levels ih =>
    intro w d hw
    obtain ⟨data, log⟩ := d
    rw [eatWithin]
    cases (hw.advance ht).1 with
    | inl hnone =>
      rw [hnone]
      exact hw
    | inr hsome =>
      obtain ⟨id, w', hadvance, hw'⟩ := hsome
      rw [hadvance]
      exact ih.run ht fuel (hv id data w') hw'

/-- A walk that stands at its end stays there, and no visitor is told of anything. -/
theorem eatWithin_of_ended (hw : w.peek = none) (fuel levels : Nat) (data : σ) :
    eatWithin v fuel levels w data = (none, w, data) := by
  cases levels with
  | zero => rfl
  | succ levels => rw [eatWithin, advance, hw]

theorem execute_of_ended (hw : w.peek = none) (fuel levels : Nat) (data : σ) :
    (eatWithin v fuel levels).execute fuel w data = (0, w, data) := by
  cases fuel with
  | zero => rfl
  | succ fuel => rw [Eater.execute, eatWithin_of_ended hw]

theorem consume_of_ended (hw : w.peek = none) (name : String) (fuel levels : Nat) (data : σ) :
    (eatWithin v fuel levels).consume name fuel w data = (none, w, data) := by
  cases fuel with
  | zero => rfl
  | succ fuel => rw [Eater.consume, eatWithin_of_ended hw]

/-- What holds of a walk over `t` that has moved on `k` times, a visitor having been told of the
nodes `fired` in this order. -/
structure Faithful (t : Tree) (k : Nat) (w : Walk) (fired : List NodeId) : Prop where
  moved : w.history.length = k
  handed : w.handed = t.postorder.take k
  current_zero : k = 0 → w.current = none
  current_pos : 0 < k → w.current = t.postorder[k - 1]?
  next : w.peek = t.postorder[k]?
  consumed : ∀ id, (w.tree.node id).consumed = true ↔ id ∈ t.postorder.take k
  consumedChildren : ∀ id,
    (w.tree.node id).consumedChildren = (t.node id).children.countP (· ∈ t.postorder.take k)
  /-- The visitor was told of the nodes that were eaten and not of those skipped. -/
  fired_eq : fired = ((w.history.filter (·.told)).map (·.id)).reverse
  in_order : fired.Sublist (t.postorder.take k)
  once : fired.Nodup

theorem Exact.faithful (ht : t.WellFormed) (h : w.Exact t) {fired : List NodeId}
    (hfired : w.toldOf = fired) : w.history.length ≤ t.postorder.length ∧
      w.Faithful t w.history.length fired := by
  have hle := h.length_le
  have hsublist : fired.Sublist (t.postorder.take w.history.length) := by
    rw [← hfired, ← h.handed]
    exact ((w.history.filter_sublist).map _).reverse
  refine ⟨hle, rfl, h.handed, ?_, ?_, h.peek ht, ?_, ?_, hfired.symm, hsublist, ?_⟩
  · intro hk
    rw [h.current, hk]
    rfl
  · intro hk
    have hlt : w.history.length - 1 < t.postorder.length := by omega
    rw [h.current, List.getLast?_take, if_neg (by omega)]
    rw [List.getElem?_eq_getElem hlt]
    rfl
  · intro id
    rw [h.node, marked, h.handed]
    simp
  · intro id
    rw [h.node, marked, h.handed]
  · exact (ht.nodup_postorder.sublist (List.take_sublist _ _)).sublist hsublist

theorem recorded_perform (ht : t.WellFormed) (hwalk : t.Unwalked) (hv : v.Forward) {r : Routine σ}
    (hr : r.Forward) (language : String) :
    Recorded t ((start t language).perform v.observed (r.observed [])).1
      ((start t language).perform v.observed (r.observed [])).2.2 :=
  (records_eatWithin ht hv _ _).run ht _ hr (.start hwalk language)

end Walk

namespace Context

variable {ctx : Context} {rule : String} {collapse : Bool} {p : Parse}

/-- A walk over the tree of a parse, collapsed or not, goes through its post-order node by node,
whatever a visitor asks of it in its turn: so it is at every moment of the observed routine, in a
visit or out of it. The routine comes to its own end, whatever the bounds, and after the last node a
walk moves on no more. -/
theorem walk_of_parse (h : ctx.parse rule collapse = .ok p) {v : Visitor σ} (hv : v.Forward)
    {r : Routine σ} (hr : r.Forward) (language : String) :
    let w := Walk.start p.tree language
    let seen := w.perform v.observed (r.observed [])
    (seen.1 = (w.perform v r).1 ∧ seen.2.1 = (w.perform v r).2) ∧
    (∀ levels fuel, w.places ≤ levels → w.places ≤ fuel →
      w.perform v r = r.run (Walk.eatWithin v fuel levels) fuel w) ∧
    (∃ k ≤ p.tree.postorder.length, seen.1.Faithful p.tree k seen.2.2.told) ∧
    (∀ m before, m :: before <:+ seen.2.2 → ∃ k ≤ p.tree.postorder.length,
      m.walk.Faithful p.tree k (Log.told (m :: before))) ∧
    (∀ u fired, u.Faithful p.tree p.tree.postorder.length fired →
      ∀ (v' : Visitor σ) (fuel levels : Nat) (data : σ),
        (∀ told, u.advance told = (none, u)) ∧
        Walk.eatWithin v' fuel levels u data = (none, u, data) ∧
        (Walk.eatWithin v' fuel levels).execute fuel u data = (0, u, data) ∧
        ∀ name, (Walk.eatWithin v' fuel levels).consume name fuel u data = (none, u, data)) := by
  obtain ⟨hwf, hwalk⟩ := walkable_of_parse h
  have hrecorded := Walk.recorded_perform hwf hwalk hv hr language
  intro w seen
  refine ⟨w.perform_observed v r [], ?_, ?_, ?_, ?_⟩
  · intro levels fuel hlevels hfuel
    exact Walk.perform_eq_run hwf hv hr (Walk.exact_start hwalk language) hlevels hfuel
  · exact ⟨_, hrecorded.exact.faithful hwf hrecorded.told⟩
  · intro m before hm
    obtain ⟨hexact, htold⟩ := hrecorded.moments m before hm
    exact ⟨_, hexact.faithful hwf htold⟩
  · intro u fired hu v' fuel levels data
    have hended : u.peek = none := hu.next.trans (List.getElem?_eq_none (Nat.le_refl _))
    refine ⟨?_, Walk.eatWithin_of_ended hended fuel levels data,
      Walk.execute_of_ended hended fuel levels data,
      fun name => Walk.consume_of_ended hended name fuel levels data⟩
    intro told
    rw [Walk.advance, hended]

/-- When told of the first node, the visitor eats on up to the assignment by itself; it lists all
nodes that it is told of. -/
def assignmentVisitor : Visitor (List NodeId) := fun id ids w =>
  match w.history with
  | [_] => .consume "ASSIGNMENT" (id :: ids) fun _ ids => .done ids
  | _ => .done (id :: ids)

theorem walk_of_parse_assignment : ∃ p,
    parse { source := .ofString "$a=1;", rules := Language.statements.index } "SCRIPT" = .ok p ∧
    let w := Walk.start p.tree "demo"
    let r : Routine (List NodeId) := .eat [] fun _ ids => .skip fun _ => .done ids
    let seen := w.perform assignmentVisitor.observed (r.observed [])
    seen.1.history.length = 12 ∧ seen.1.Faithful p.tree 12 seen.2.2.told := by
  have hrun : (parse { source := .ofString "$a=1;", rules := Language.statements.index }
      "SCRIPT").toOption.map (fun p => ((Walk.start p.tree "demo").perform
        assignmentVisitor.observed (Routine.observed
          (.eat [] fun _ ids => .skip fun _ => .done ids) [])).1.history.length) = some 12 := by
    decide +kernel
  have hvisitor : assignmentVisitor.Forward := by
    intro id ids w
    unfold assignmentVisitor
    split
    · exact fun _ _ => trivial
    · trivial
  cases hp : parse { source := .ofString "$a=1;", rules := Language.statements.index }
      "SCRIPT" with
  | error e =>
    rw [hp] at hrun
    cases hrun
  | ok p =>
    rw [hp] at hrun
    have hlength := Option.some.inj hrun
    obtain ⟨-, -, ⟨k, -, hfaithful⟩, -⟩ := walk_of_parse hp hvisitor
      (show (Routine.eat [] fun _ ids => .skip fun _ => .done ids : Routine (List NodeId)).Forward
        from fun _ _ _ => trivial) "demo"
    have hk : k = 12 := hfaithful.moved.symm.trans hlength
    subst hk
    exact ⟨p, rfl, hlength, hfaithful⟩

end Context

end RankedGrammar
