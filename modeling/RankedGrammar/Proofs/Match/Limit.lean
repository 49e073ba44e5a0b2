import RankedGrammar.Proofs.Match.Determined

/-!
Runs under different limits. As long as neither comes to its limit, two runs of a rule go through the
same states; so the limit shows in nothing but the end of the run, and the deepest nesting that a run
has reached tells under which limits it goes well.
-/
namespace RankedGrammar

/-- A property of what went wrong, the deepest nesting and the undefined names. -/
abbrev Standing := Option TooDeep → Nat → List String → Prop

def RunState.Stands (P : Standing) (s : RunState) : Prop :=
  P s.fault s.counters.deepest s.counters.unresolved

namespace Step

/-- Where the first step leads to the property it began with it, and the second does the same. -/
def Tracks (P : Standing) (r r' : Step) : Prop :=
  ∀ s, (r s).2.Stands P → s.Stands P ∧ r' s = r s

section Tracks

variable {P : Standing} {r r' : Step} {rs rs' : List Step} {id : NodeId}

theorem Tracks.of_eq (h : ∀ s, (r s).2.Stands P → s.Stands P) : Tracks P r r :=
  fun s hs => ⟨h s hs, rfl⟩

theorem tracks_own (id : NodeId) (f : Terminal) : Tracks P (own id f) (own id f) :=
  .of_eq fun _ hs => hs

theorem tracks_ifElse {yes yes' no no' : Step} (h : Tracks P r r') (hyes : Tracks P yes yes')
    (hno : Tracks P no no') : Tracks P (ifElse r yes no) (ifElse r' yes' no') := by
  intro s hs
  have hfirst := h s
  unfold ifElse at hs ⊢
  generalize r s = out at hs hfirst ⊢
  obtain ⟨ok, s₁⟩ := out
  cases ok with
  | true =>
    obtain ⟨hmid, hrest⟩ := hyes s₁ hs
    obtain ⟨hstart, heq⟩ := hfirst hmid
    exact ⟨hstart, by rw [heq]; exact hrest⟩
  | false =>
    obtain ⟨hmid, hrest⟩ := hno s₁ hs
    obtain ⟨hstart, heq⟩ := hfirst hmid
    exact ⟨hstart, by rw [heq]; exact hrest⟩

theorem tracks_negate (h : Tracks P r r') : Tracks P (negate r) (negate r') := by
  rw [negate_eq, negate_eq]
  exact tracks_ifElse h (.of_eq fun _ hs => hs) (.of_eq fun _ hs => hs)

theorem tracks_all (h : List.Forall₂ (Tracks P) rs rs') : Tracks P (all rs) (all rs') := by
  induction h with
  | nil => exact .of_eq fun _ hs => hs
  | cons hr _ ih => exact tracks_ifElse hr ih (.of_eq fun _ hs => hs)

theorem tracks_any (h : List.Forall₂ (Tracks P) rs rs') : Tracks P (any rs) (any rs') := by
  induction h with
  | nil => exact .of_eq fun _ hs => hs
  | cons hr _ ih => exact tracks_ifElse hr (.of_eq fun _ hs => hs) ih

theorem tracks_sequence (id : NodeId) (h : List.Forall₂ (Tracks P) rs rs') :
    Tracks P (sequence id rs) (sequence id rs') := by
  intro s hs
  have hback : (all rs s).2.Stands P := by
    unfold sequence at hs
    generalize all rs s = out at hs ⊢
    obtain ⟨ok, s₁⟩ := out
    cases ok <;> exact hs
  obtain ⟨hstart, heq⟩ := tracks_all h s hback
  refine ⟨hstart, ?_⟩
  unfold sequence
  rw [heq]

theorem tracks_trials (id : NodeId) (point base : Nat) (h : List.Forall₂ (Tracks P) rs rs')
    (s : RunState) (hs : (trials id point base rs s).2.Stands P) :
    s.Stands P ∧ trials id point base rs' s = trials id point base rs s := by
  induction h generalizing s with
  | nil => exact ⟨hs, rfl⟩
  | @cons r r' rs rs' hr _ ih =>
    rw [trials_cons] at hs
    obtain ⟨hmid, hrest⟩ := ih _ hs
    obtain ⟨hstart, heq⟩ := hr (s.moveTo id point) hmid
    refine ⟨hstart, ?_⟩
    rw [trials_cons, trials_cons, heq]
    simp only [hrest]

theorem stands_settle {ts : List (Trial NodeId)} {point : Nat} {s : RunState}
    (h : (settle id point (ts, s)).2.Stands P) : s.Stands P := by
  simp only [settle] at h
  split at h
  · exact h
  split at h
  · exact h
  · exact h

theorem tracks_alternation (id : NodeId) (h : List.Forall₂ (Tracks P) rs rs') :
    Tracks P (alternation id rs) (alternation id rs') := by
  intro s hs
  obtain ⟨hstart, heq⟩ := tracks_trials id _ _ h s.noteAlternation (stands_settle hs)
  refine ⟨hstart, ?_⟩
  unfold alternation
  rw [heq]

theorem tracks_turns (id : NodeId) (h : Tracks P r r') (fuel count : Nat) (s : RunState)
    (hs : (turns id r fuel count s).2.Stands P) :
    s.Stands P ∧ turns id r' fuel count s = turns id r fuel count s := by
  induction fuel generalizing count s with
  | zero => exact ⟨hs, rfl⟩
  | succ fuel ih =>
    have hturn := h s
    rw [turns] at hs
    rw [turns, turns]
    generalize r s = out at hs hturn ⊢
    obtain ⟨matched, s₁⟩ := out
    dsimp only at hs ⊢
    by_cases hon : (matched && s.cursor id < s₁.cursor id) = true
    · rw [if_pos hon] at hs
      obtain ⟨hmid, hrest⟩ := ih (count + 1) s₁ hs
      obtain ⟨hstart, heq⟩ := hturn hmid
      rw [heq, if_pos hon, if_pos hon]
      exact ⟨hstart, hrest⟩
    · rw [if_neg hon] at hs
      obtain ⟨hstart, heq⟩ := hturn hs
      rw [heq, if_neg hon]
      exact ⟨hstart, (if_neg hon).symm⟩

theorem tracks_call (ctx : Context) (limit : Nat) {run run' : NodeId → Step} (id : NodeId)
    (c : Call) (h : ∀ child, Tracks P (run child) (run' child)) :
    Tracks P (call ctx run id c) (call (ctx.withLimit limit) run' id c) := by
  intro s hs
  have hback : (run s.tree.size (s.grow ctx id c.rule c.role)).2.Stands P := by
    unfold call at hs
    generalize run s.tree.size (s.grow ctx id c.rule c.role) = out at hs ⊢
    obtain ⟨ok, s₁⟩ := out
    cases ok <;> exact hs
  obtain ⟨hstart, heq⟩ := h s.tree.size _ hback
  refine ⟨hstart, ?_⟩
  have hgrow : s.grow (ctx.withLimit limit) id c.rule c.role = s.grow ctx id c.rule c.role := rfl
  unfold call
  rw [hgrow, heq]
  rfl

end Tracks

end Step

theorem Expr.forall₂_tracks {ctx : Context} {limit : Nat} {P : Standing} {run run' : NodeId → Step}
    {id : NodeId} {es : List Expr} (h : ∀ e ∈ es,
      Step.Tracks P (e.step ctx run id) (e.step (ctx.withLimit limit) run' id)) :
    List.Forall₂ (Step.Tracks P) (Expr.steps ctx run id es)
      (Expr.steps (ctx.withLimit limit) run' id es) := by
  rw [steps_eq, steps_eq]
  exact List.forall₂_map_left_iff.2 (List.forall₂_map_right_iff.2 (List.forall₂_same.2 h))

/-- A body looks at no limit by itself. -/
theorem Expr.tracks_step (ctx : Context) (limit : Nat) {P : Standing} {run run' : NodeId → Step}
    (id : NodeId) (h : ∀ child, Step.Tracks P (run child) (run' child)) (e : Expr) :
    Step.Tracks P (e.step ctx run id) (e.step (ctx.withLimit limit) run' id) := by
  induction e using Expr.induct ctx.source with
  | call c =>
    rw [c.step_body, c.step_body]
    exact Step.tracks_call ctx limit id c h
  | seq es ih => exact Step.tracks_sequence id (forall₂_tracks ih)
  | alt es ih => exact Step.tracks_alternation id (forall₂_tracks ih)
  | many e ih =>
    intro s hs
    obtain ⟨hstart, heq⟩ := Step.tracks_turns id ih (ctx.source.size - s.cursor id + 1) 0 s hs
    exact ⟨hstart, congrArg (fun out : Nat × RunState => (true, out.2)) heq⟩
  | tally e least ih =>
    intro s hs
    obtain ⟨hstart, heq⟩ := Step.tracks_turns id ih (ctx.source.size - s.cursor id + 1) 0 s hs
    exact ⟨hstart, congrArg (fun out : Nat × RunState => (decide (least ≤ out.1),
      out.2.report (.tally (out.2.node id).name out.1 (out.2.cursor id)))) heq⟩
  | counted e test ih =>
    intro s hs
    obtain ⟨hstart, heq⟩ := Step.tracks_turns id ih (ctx.source.size - s.cursor id + 1) 0 s hs
    exact ⟨hstart, congrArg (fun out : Nat × RunState => (test out.1, out.2)) heq⟩
  | @own e f hown =>
    have hown' : e.Own (ctx.withLimit limit).source f := hown
    rw [hown.step_eq, hown'.step_eq]
    exact Step.tracks_own id f
  | probe label => exact .of_eq fun _ hs => hs
  | not e ih => exact Step.tracks_negate ih
  | all es ih => exact Step.tracks_all (forall₂_tracks ih)
  | any es ih => exact Step.tracks_any (forall₂_tracks ih)
  | ifElse e yes no ihe ihyes ihno => exact Step.tracks_ifElse ihe ihyes ihno
  | const ok => exact .of_eq fun _ hs => hs

/-- The property held before a rule was entered at one of the depths, and before a name was noted,
if it holds after. -/
structure Standing.Lasting (P : Standing) (limit : Nat) : Prop where
  enter : ∀ {f d u depth}, depth ≤ limit → P f (max d depth) u → P f d u
  unresolved : ∀ {f d u name}, P f d (u ++ [name]) → P f d u

namespace Context

variable {ctx : Context} {P : Standing} {limit : Nat} {rule : String} {p : RawParse}

theorem stands_noteUnresolved (hP : P.Lasting limit) {id : NodeId} {s : RunState}
    (h : (s.noteUnresolved ctx id).Stands P) : s.Stands P := by
  unfold RunState.noteUnresolved at h
  dsimp only at h
  split at h
  · exact h
  · exact hP.unresolved h

/-- To settle that two attempts go together, it is enough to look at those with no level to go in
one of the runs. -/
theorem tracks_attempt (hP : P.Lasting ctx.limit)
    (hbase : ∀ {left left'} id, left = 0 ∨ left' = 0 → ctx.limit + left' = limit + left →
      Step.Tracks P (ctx.attempt left id) ((ctx.withLimit limit).attempt left' id))
    {left left' : Nat} (hlevel : ctx.limit + left' = limit + left) (hle : left ≤ ctx.limit)
    (id : NodeId) :
    Step.Tracks P (ctx.attempt left id) ((ctx.withLimit limit).attempt left' id) := by
  induction left generalizing left' id with
  | zero => exact hbase id (.inl rfl) hlevel
  | succ left ih =>
    cases left' with
    | zero => exact hbase id (.inr rfl) hlevel
    | succ left' =>
      intro s hs
      have hrules : (ctx.withLimit limit).rules = ctx.rules := rfl
      have hdepth : (ctx.withLimit limit).limit - left' = ctx.limit - left := by
        have : (ctx.withLimit limit).limit = limit := rfl
        omega
      rw [attempt_succ] at hs
      rw [attempt_succ, attempt_succ, hrules, hdepth]
      by_cases hfault : s.fault.isSome
      · rw [if_pos hfault] at hs
        rw [if_pos hfault, if_pos hfault]
        exact ⟨hs, rfl⟩
      · rw [if_neg hfault] at hs
        rw [if_neg hfault, if_neg hfault]
        cases hrule : ctx.rules.rule? (s.node id).name with
        | none =>
          rw [hrule] at hs
          exact ⟨stands_noteUnresolved hP hs, rfl⟩
        | some body =>
          rw [hrule] at hs
          obtain ⟨henter, heq⟩ := Expr.tracks_step ctx limit id
            (fun child => @ih left' (by omega) (by omega) child) body
            (s.enter id (ctx.limit - left)) hs
          exact ⟨hP.enter (Nat.sub_le _ _) henter, congrArg (RunState.leave id) heq⟩

/-- A lasting property that giving up does not bring about held at the start of a run. -/
theorem stands_of_attempt (hP : P.Lasting ctx.limit)
    (hgive : ∀ {d u name}, P (some ⟨ctx.limit, name⟩) d u → P none d u) {left : Nat}
    (hle : left ≤ ctx.limit) (id : NodeId) :
    Step.Tracks P (ctx.attempt left id) (ctx.attempt left id) := by
  refine @tracks_attempt ctx P ctx.limit hP ?_ left left rfl hle id
  intro left left' id hzero hlevel
  have hleft : left = 0 := by omega
  have hleft' : left' = 0 := by omega
  subst hleft hleft'
  refine .of_eq fun s hs => ?_
  rw [attempt_zero] at hs
  by_cases hfault : s.fault.isSome
  · rw [if_pos hfault] at hs
    exact hs
  · rw [if_neg hfault] at hs
    have hnone : s.fault = none := by simpa using hfault
    unfold RunState.Stands
    rw [hnone]
    exact hgive hs

theorem fault_attempt_zero (ctx : Context) (id : NodeId) (s : RunState) :
    (ctx.attempt 0 id s).2.fault ≠ none := by
  rw [attempt_zero]
  split
  · next hfault => exact Option.isSome_iff_ne_none.1 hfault
  · exact Option.some_ne_none _

/-- An undefined name is among those noted, be it met for the first time or again. -/
theorem unresolved_noteUnresolved (ctx : Context) (id : NodeId) (s : RunState) :
    (s.noteUnresolved ctx id).counters.unresolved ≠ [] := by
  unfold RunState.noteUnresolved
  dsimp only
  split
  · next hagain => exact List.ne_nil_of_mem hagain
  · simp

/-- Without a fault the run is the same under any greater limit. -/
theorem tracks_of_le (hle : ctx.limit ≤ limit) (id : NodeId) :
    Step.Tracks (fun fault _ _ => fault = none) (ctx.attempt ctx.limit id)
      ((ctx.withLimit limit).attempt limit id) := by
  refine tracks_attempt ⟨fun _ h => h, fun h => h⟩ ?_ (Nat.add_comm _ _) (Nat.le_refl _) id
  intro left left' id hzero hlevel s hs
  have hleft : left = 0 := by omega
  subst hleft
  exact absurd hs (fault_attempt_zero ctx id s)

/-- If every name is defined, a run that goes no deeper than another limit is the same under it. -/
theorem tracks_of_deepest_le (id : NodeId) :
    Step.Tracks (fun fault deepest unresolved => fault = none ∧ deepest ≤ limit ∧ unresolved = [])
      (ctx.attempt ctx.limit id) ((ctx.withLimit limit).attempt limit id) := by
  refine tracks_attempt ⟨fun _ h => ⟨h.1, by omega, h.2.2⟩, fun h => by simp at h⟩ ?_
    (Nat.add_comm _ _) (Nat.le_refl _) id
  intro left left' id hzero hlevel s hs
  exfalso
  cases left with
  | zero => exact fault_attempt_zero ctx id s hs.1
  | succ left =>
    rw [attempt_succ] at hs
    by_cases hfault : s.fault.isSome
    · rw [if_pos hfault] at hs
      exact Option.isSome_iff_ne_none.1 hfault hs.1
    · rw [if_neg hfault] at hs
      cases hrule : ctx.rules.rule? (s.node id).name with
      | none =>
        rw [hrule] at hs
        exact unresolved_noteUnresolved ctx id s hs.2.2
      | some body =>
        -- the rule is entered one level beyond the other limit
        rw [hrule] at hs
        have hdeep : Standing.Lasting (fun _ deepest _ => deepest ≤ limit) ctx.limit :=
          ⟨fun _ h => by omega, fun h => h⟩
        have henter := (Expr.tracks_step ctx ctx.limit id
          (fun child => stands_of_attempt hdeep (fun h => h) (by omega) child) body
          (s.enter id (ctx.limit - left)) hs.2.1).1
        have hmax : max s.counters.deepest (ctx.limit - left) ≤ limit := henter
        omega

/-- A rule is entered at no depth beyond the limit, and a fault is reported with the limit. -/
theorem stands_run (ctx : Context) (rule : String) :
    (ctx.attempt ctx.limit Tree.root (.start ctx rule)).2.counters.deepest ≤ ctx.limit ∧
      ∀ e, (ctx.attempt ctx.limit Tree.root (.start ctx rule)).2.fault = some e →
        e.limit = ctx.limit := by
  constructor
  · by_contra hdeep
    have hlasting : Standing.Lasting (fun _ deepest _ => ¬ deepest ≤ ctx.limit) ctx.limit :=
      ⟨fun _ h => by omega, fun h => h⟩
    exact (stands_of_attempt hlasting (fun h => h) (Nat.le_refl _) Tree.root _ hdeep).1
      (Nat.zero_le _)
  · intro e he
    by_contra hother
    have hlasting : Standing.Lasting (fun fault _ _ => ∃ e, fault = some e ∧ e.limit ≠ ctx.limit)
      ctx.limit := ⟨fun _ h => h, fun h => h⟩
    obtain ⟨⟨e', he', -⟩, -⟩ := stands_of_attempt hlasting
      (fun ⟨e, he, hne⟩ => absurd (Option.some.inj he ▸ rfl) hne) (Nat.le_refl _) Tree.root
      (.start ctx rule) ⟨e, he, hother⟩
    cases he'

theorem rawParse_eq (ctx : Context) (rule : String) :
    ctx.rawParse rule =
      match (ctx.attempt ctx.limit Tree.root (.start ctx rule)).2.fault with
      | some fault =>
        .error ⟨fault, (ctx.attempt ctx.limit Tree.root (.start ctx rule)).2.journal⟩
      | none =>
        .ok ⟨(ctx.attempt ctx.limit Tree.root (.start ctx rule)).2.tree,
          (ctx.attempt ctx.limit Tree.root (.start ctx rule)).2.counters,
          (ctx.attempt ctx.limit Tree.root (.start ctx rule)).2.journal⟩ := rfl

theorem stands_of_rawParse (h : ctx.rawParse rule = .ok p) :
    (ctx.attempt ctx.limit Tree.root (.start ctx rule)).2.fault = none ∧
      (ctx.attempt ctx.limit Tree.root (.start ctx rule)).2.counters = p.counters := by
  rw [rawParse_eq] at h
  cases hfault : (ctx.attempt ctx.limit Tree.root (.start ctx rule)).2.fault with
  | some fault =>
    rw [hfault] at h
    cases h
  | none =>
    rw [hfault] at h
    cases h
    exact ⟨rfl, rfl⟩

theorem rawParse_withLimit
    (h : (ctx.withLimit limit).attempt limit Tree.root (.start ctx rule) =
      ctx.attempt ctx.limit Tree.root (.start ctx rule)) :
    (ctx.withLimit limit).rawParse rule = ctx.rawParse rule := by
  have hstart : RunState.start (ctx.withLimit limit) rule = .start ctx rule := rfl
  have hlimit : (ctx.withLimit limit).limit = limit := rfl
  rw [rawParse_eq, rawParse_eq, hstart, hlimit, h]

theorem rawParse_of_le (hle : ctx.limit ≤ limit) (h : ctx.rawParse rule = .ok p) :
    (ctx.withLimit limit).rawParse rule = .ok p := by
  rw [← h]
  exact rawParse_withLimit (tracks_of_le hle Tree.root _ (stands_of_rawParse h).1).2

theorem deepest_le_limit (h : ctx.rawParse rule = .ok p) : p.counters.deepest ≤ ctx.limit := by
  rw [← (stands_of_rawParse h).2]
  exact (stands_run ctx rule).1

theorem rawParse_of_lt_deepest (h : ctx.rawParse rule = .ok p) (hlt : limit < p.counters.deepest) :
    ∃ e, (ctx.withLimit limit).rawParse rule = .error e ∧ e.fault.limit = limit := by
  cases hrun : (ctx.withLimit limit).rawParse rule with
  | ok q =>
    -- the run would be the same under the given limit, and so no deeper
    have hle : limit ≤ ctx.limit := Nat.le_trans (Nat.le_of_lt hlt) (deepest_le_limit h)
    have hback : ((ctx.withLimit limit).withLimit ctx.limit).rawParse rule = .ok q :=
      rawParse_of_le hle hrun
    have hsame : ctx.rawParse rule = .ok q := hback
    rw [h] at hsame
    cases hsame
    exact absurd (deepest_le_limit hrun) (Nat.not_le.2 hlt)
  | error e =>
    refine ⟨e, rfl, ?_⟩
    rw [rawParse_eq] at hrun
    split at hrun
    · next fault hfault =>
      cases hrun
      exact (stands_run (ctx.withLimit limit) rule).2 fault hfault
    · cases hrun

/-- The limit shows only where a run comes to it. A run that ends well ends in the same way under
every greater limit, and badly under every limit below the deepest nesting that it has reached; if
it has met no undefined name, that depth is the least limit under which it ends well. -/
theorem rawParse_limit (h : ctx.rawParse rule = .ok p) :
    (∀ limit, ctx.limit ≤ limit → (ctx.withLimit limit).rawParse rule = .ok p) ∧
    (∀ limit, limit < p.counters.deepest →
      ∃ e, (ctx.withLimit limit).rawParse rule = .error e ∧ e.fault.limit = limit) ∧
    (p.counters.unresolved = [] →
      ∀ limit, (∃ q, (ctx.withLimit limit).rawParse rule = .ok q) ↔ p.counters.deepest ≤ limit) := by
  refine ⟨fun limit hle => rawParse_of_le hle h, fun limit hlt => rawParse_of_lt_deepest h hlt,
    fun hdefined limit => ⟨fun ⟨q, hq⟩ => ?_, fun hdeep => ?_⟩⟩
  · by_contra hlt
    obtain ⟨e, he, -⟩ := rawParse_of_lt_deepest h (Nat.not_le.1 hlt)
    rw [hq] at he
    cases he
  · obtain ⟨hfault, hcounters⟩ := stands_of_rawParse h
    have hstands : (ctx.attempt ctx.limit Tree.root (.start ctx rule)).2.Stands
        fun fault deepest unresolved => fault = none ∧ deepest ≤ limit ∧ unresolved = [] := by
      unfold RunState.Stands
      rw [hcounters]
      exact ⟨hfault, hdeep, hdefined⟩
    exact ⟨p, (rawParse_withLimit (tracks_of_deepest_le Tree.root _ hstands).2).trans h⟩

/-- An assignment whose rules are nested eight deep. -/
theorem rawParse_limit_assignment :
    let ctx : Context := { source := .ofString "$a=1+2;", rules := Language.statements.index }
    ∃ p, ctx.rawParse "SCRIPT" = .ok p ∧ p.counters.unresolved = [] ∧
      ∀ limit, (∃ q, (ctx.withLimit limit).rawParse "SCRIPT" = .ok q) ↔ 8 ≤ limit := by
  intro ctx
  have hrun : (ctx.rawParse "SCRIPT").toOption.map (fun p => decide (p.counters.deepest = 8 ∧
      p.counters.unresolved = [])) = some true := by
    decide +kernel
  cases hp : ctx.rawParse "SCRIPT" with
  | error e =>
    rw [hp] at hrun
    cases hrun
  | ok p =>
    rw [hp] at hrun
    obtain ⟨hdeepest, hdefined⟩ := of_decide_eq_true (Option.some.inj hrun)
    exact ⟨p, rfl, hdefined, hdeepest ▸ (rawParse_limit hp).2.2 hdefined⟩

end Context

end RankedGrammar
