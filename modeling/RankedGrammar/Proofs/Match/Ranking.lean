import RankedGrammar.Proofs.Match.Adopted
import RankedGrammar.Proofs.Match.Call
import RankedGrammar.Proofs.Match.Matched

/-!
What the weight of a candidate counts. It counts every node that the candidate keeps, blank ones apart:
those that matched and those that did not. So a candidate that went on after a failure of its own may
outweigh one that matched as much; where bodies go on only if what failed made no nodes, there is no
such failure below a success.
-/
namespace RankedGrammar

/-- At work on the node `id` from the first state on, the body comes to its part `e'` in the second.
-/
inductive Expr.Comes (ctx : Context) (run : NodeId → Step) (id : NodeId) :
    Expr → RunState → Expr → RunState → Prop where
  | here (e : Expr) (s : RunState) : Comes ctx run id e s e s
  | seq {pre post : List Expr} {e e' : Expr} {s s₁ s' : RunState}
      (before : Step.all (Expr.steps ctx run id pre) s = (true, s₁))
      (part : Comes ctx run id e s₁ e' s') : Comes ctx run id (.seq (pre ++ e :: post)) s e' s'
  | all {pre post : List Expr} {e e' : Expr} {s s₁ s' : RunState}
      (before : Step.all (Expr.steps ctx run id pre) s = (true, s₁))
      (part : Comes ctx run id e s₁ e' s') : Comes ctx run id (.all (pre ++ e :: post)) s e' s'
  | any {pre post : List Expr} {e e' : Expr} {s s₁ s' : RunState}
      (before : Step.any (Expr.steps ctx run id pre) s = (false, s₁))
      (part : Comes ctx run id e s₁ e' s') : Comes ctx run id (.any (pre ++ e :: post)) s e' s'
  | alt {pre post : List Expr} {e e' : Expr} {s s₁ s' : RunState}
      (before : (Step.trials id (s.cursor id) (s.node id).children.length
        (Expr.steps ctx run id pre) s.noteAlternation).2 = s₁)
      (part : Comes ctx run id e (s₁.moveTo id (s.cursor id)) e' s') :
      Comes ctx run id (.alt (pre ++ e :: post)) s e' s'
  | many {e e' : Expr} {s s' : RunState} (part : Comes ctx run id e s e' s') :
      Comes ctx run id (.many e) s e' s'
  | turn {e e' : Expr} {s s₁ s' : RunState} (before : e.step ctx run id s = (true, s₁))
      (advanced : s.cursor id < s₁.cursor id) (part : Comes ctx run id (.many e) s₁ e' s') :
      Comes ctx run id (.many e) s e' s'
  | tally {e e' : Expr} {least : Nat} {s s' : RunState}
      (part : Comes ctx run id (.many e) s e' s') : Comes ctx run id (.tally e least) s e' s'
  | counted {e e' : Expr} {test : Nat → Bool} {s s' : RunState}
      (part : Comes ctx run id (.many e) s e' s') : Comes ctx run id (.counted e test) s e' s'
  | not {e e' : Expr} {s s' : RunState} (part : Comes ctx run id e s e' s') :
      Comes ctx run id (.not e) s e' s'
  | test {e yes no e' : Expr} {s s' : RunState} (part : Comes ctx run id e s e' s') :
      Comes ctx run id (.ifElse e yes no) s e' s'
  | yes {e yes no e' : Expr} {s s₁ s' : RunState} (before : e.step ctx run id s = (true, s₁))
      (part : Comes ctx run id yes s₁ e' s') : Comes ctx run id (.ifElse e yes no) s e' s'
  | no {e yes no e' : Expr} {s s₁ s' : RunState} (before : e.step ctx run id s = (false, s₁))
      (part : Comes ctx run id no s₁ e' s') : Comes ctx run id (.ifElse e yes no) s e' s'

/-- A rule is called where the body comes to a call. -/
theorem Expr.Invokes.comes {ctx : Context} {run : NodeId → Step} {id child : NodeId} {e : Expr}
    {s s' : RunState} (h : e.Invokes ctx run id s child s') :
    ∃ (c : Call) (e' : Expr) (s₁ : RunState), e.Comes ctx run id s e' s₁ ∧ child = s₁.tree.size ∧
      s' = s₁.grow ctx id c.rule c.role := by
  induction h with
  | ref rule s => exact ⟨.ref rule, _, s, .here _ s, rfl, rfl⟩
  | named rule caption s => exact ⟨.named rule caption, _, s, .here _ s, rfl, rfl⟩
  | lit t s => exact ⟨.lit t, _, s, .here _ s, rfl, rfl⟩
  | seq before _ ih =>
    obtain ⟨c, e', s₁, hpart, hgrown⟩ := ih
    exact ⟨c, e', s₁, .seq before hpart, hgrown⟩
  | all before _ ih =>
    obtain ⟨c, e', s₁, hpart, hgrown⟩ := ih
    exact ⟨c, e', s₁, .all before hpart, hgrown⟩
  | any before _ ih =>
    obtain ⟨c, e', s₁, hpart, hgrown⟩ := ih
    exact ⟨c, e', s₁, .any before hpart, hgrown⟩
  | alt before _ ih =>
    obtain ⟨c, e', s₁, hpart, hgrown⟩ := ih
    exact ⟨c, e', s₁, .alt before hpart, hgrown⟩
  | many _ ih =>
    obtain ⟨c, e', s₁, hpart, hgrown⟩ := ih
    exact ⟨c, e', s₁, .many hpart, hgrown⟩
  | turn before advanced _ ih =>
    obtain ⟨c, e', s₁, hpart, hgrown⟩ := ih
    exact ⟨c, e', s₁, .turn before advanced hpart, hgrown⟩
  | tally _ ih =>
    obtain ⟨c, e', s₁, hpart, hgrown⟩ := ih
    exact ⟨c, e', s₁, .tally hpart, hgrown⟩
  | counted _ ih =>
    obtain ⟨c, e', s₁, hpart, hgrown⟩ := ih
    exact ⟨c, e', s₁, .counted hpart, hgrown⟩
  | not _ ih =>
    obtain ⟨c, e', s₁, hpart, hgrown⟩ := ih
    exact ⟨c, e', s₁, .not hpart, hgrown⟩
  | test _ ih =>
    obtain ⟨c, e', s₁, hpart, hgrown⟩ := ih
    exact ⟨c, e', s₁, .test hpart, hgrown⟩
  | yes before _ ih =>
    obtain ⟨c, e', s₁, hpart, hgrown⟩ := ih
    exact ⟨c, e', s₁, .yes before hpart, hgrown⟩
  | no before _ ih =>
    obtain ⟨c, e', s₁, hpart, hgrown⟩ := ih
    exact ⟨c, e', s₁, .no before hpart, hgrown⟩

namespace Tree

variable {t : Tree} {ids : List NodeId}

/-- The nodes below some nodes, those included and blank ones left out, that matched or that did
not. -/
def countBelow (t : Tree) (ids : List NodeId) (matched : Bool) : Nat :=
  (ids.flatMap t.descendants).countP fun n =>
    (t.node n).name ≠ blankName ∧ (t.node n).matched = matched

theorem totalWeight_eq_add (t : Tree) (ids : List NodeId) :
    Step.totalWeight t.weight ids = t.countBelow ids true + t.countBelow ids false := by
  rw [totalWeight_eq_countP, countBelow, countBelow,
    List.countP_eq_countP_filter_add _ _ fun n => (t.node n).matched, List.countP_filter,
    List.countP_filter]
  congr 1
  · exact List.countP_congr fun n _ => by simp
  · exact List.countP_congr fun n _ => by simp

theorem countBelow_false_eq_zero : t.countBelow ids false = 0 ↔
    ∀ c ∈ ids, ∀ n ∈ t.descendants c, (t.node n).name ≠ blankName → (t.node n).matched = true := by
  rw [countBelow, List.countP_eq_zero]
  simp only [List.mem_flatMap, decide_eq_true_eq, not_and, Bool.not_eq_false]
  constructor
  · intro h c hc n hn hname
    exact h n ⟨c, hc, hn⟩ hname
  · rintro h n ⟨c, hc, hn⟩ hname
    exact h c hc n hn hname

end Tree

namespace Expr

variable {ctx : Context} {left id : Nat} {e e₁ e' : Expr} {s s₁ s' : RunState}

/-- What becomes of the node on the way from one part of a body to another: it keeps what it had,
and where bodies are tidy it is still open. -/
def Arrives (ctx : Context) (id : Nat) (e : Expr) (s : RunState) (e' : Expr) (s' : RunState) : Prop :=
  s.Extends id s' ∧
    (ctx.Tidy → e.Tidy ctx → s.tree.Open id → e'.Tidy ctx ∧ s'.tree.Open id)

theorem Arrives.trans (h : Arrives ctx id e s e₁ s₁) (hid : id < s.tree.size)
    (h' : s₁.tree.WellFormed → id < s₁.tree.size → Arrives ctx id e₁ s₁ e' s') :
    Arrives ctx id e s e' s' := by
  obtain ⟨hext, hopen⟩ := h
  obtain ⟨hext', hopen'⟩ := h' hext.wellFormed (Nat.lt_of_lt_of_le hid hext.size_le)
  refine ⟨hext.trans hid hext', fun hrules htidy hs => ?_⟩
  obtain ⟨htidy', hs'⟩ := hopen hrules htidy hs
  exact hopen' hrules htidy' hs'

theorem arrives_step {ok : Bool} (hs : s.tree.WellFormed) (hid : id < s.tree.size)
    (before : e.step ctx (ctx.attempt left) id s = (ok, s₁)) :
    s.Extends id s₁ ∧ (ctx.Tidy → e.Tidy ctx → s.tree.Open id → s₁.tree.Open id) := by
  refine ⟨?_, fun hrules he hopen => ?_⟩
  · have hext := Expr.local_step ctx id (ctx.local_attempt left) e s hs hid
    rwa [before] at hext
  · have hafter := (Expr.tidy_step ctx id (Context.marks_attempt hrules left) e he s hs hid hopen).1
    rwa [before] at hafter

/-- What becomes of the node while parts in order succeed. -/
theorem arrives_all {pre : List Expr} (hs : s.tree.WellFormed) (hid : id < s.tree.size)
    (before : Step.all (Expr.steps ctx (ctx.attempt left) id pre) s = (true, s₁)) :
    s.Extends id s₁ ∧
      (ctx.Tidy → (∀ e ∈ pre, e.Tidy ctx) → s.tree.Open id → s₁.tree.Open id) := by
  have hlocal := Expr.local_steps ctx id (ctx.local_attempt left) pre
  refine ⟨?_, fun hrules hpre hopen => ?_⟩
  · have hext := Step.local_all hlocal s hs hid
    rwa [before] at hext
  · have htidy := Expr.tidy_steps ctx id (Context.marks_attempt hrules left) pre hpre
    have hafter := (Step.tidy_all hlocal htidy s hs hid hopen).1
    rwa [before] at hafter

/-- Where a body comes to a part of it, the node is as it was but for what came before. -/
theorem Comes.arrives (h : e.Comes ctx (ctx.attempt left) id s e' s') (hs : s.tree.WellFormed)
    (hid : id < s.tree.size) : Arrives ctx id e s e' s' := by
  have hlocal := ctx.local_attempt left
  have hsteps := fun es => Expr.local_steps ctx id hlocal es
  have htidies := fun (hrules : ctx.Tidy) (es : List Expr) (hes : ∀ e ∈ es, e.Tidy ctx) =>
    Expr.tidy_steps ctx id (Context.marks_attempt hrules left) es hes
  induction h with
  | here e s => exact ⟨.refl hs, fun _ htidy hopen => ⟨htidy, hopen⟩⟩
  | @seq pre post e e' s s₁ s' before _ ih =>
    obtain ⟨hext, hopens⟩ := arrives_all hs hid before
    have hpart : Arrives ctx id (.seq (pre ++ e :: post)) s e s₁ := by
      refine ⟨hext, fun hrules htidy hopen => ?_⟩
      cases htidy with
      | seq htidy =>
        obtain ⟨hpre, hrest⟩ := List.forall_mem_append.1 htidy
        exact ⟨(List.forall_mem_cons.1 hrest).1, hopens hrules hpre hopen⟩
    exact hpart.trans hid ih
  | @all pre post e e' s s₁ s' before _ ih =>
    obtain ⟨hext, hopens⟩ := arrives_all hs hid before
    have hpart : Arrives ctx id (.all (pre ++ e :: post)) s e s₁ := by
      refine ⟨hext, fun hrules htidy hopen => ?_⟩
      cases htidy with
      | all htidy =>
        obtain ⟨hpre, hrest⟩ := List.forall_mem_append.1 htidy
        exact ⟨(List.forall_mem_cons.1 hrest).1, hopens hrules hpre hopen⟩
    exact hpart.trans hid ih
  | @any pre post e e' s s₁ s' before _ ih =>
    suffices hpart : Arrives ctx id (.any (pre ++ e :: post)) s e s₁ from hpart.trans hid ih
    refine ⟨?_, fun hrules htidy hopen => ?_⟩
    · have hext := Step.local_any (hsteps pre) s hs hid
      rwa [before] at hext
    · cases htidy with
      | any htidy hbarren =>
        obtain ⟨hpre, hrest⟩ := List.forall_mem_append.1 htidy
        have hbarrens : ∀ r ∈ Expr.steps ctx (ctx.attempt left) id pre, Step.Barren id r := by
          rw [Expr.steps_eq]
          exact List.forall_mem_map.2 fun e he =>
            (List.forall_mem_append.1 hbarren).1 e he left id
        have hafter := (Step.tidy_any (hsteps pre) (htidies hrules pre hpre) hbarrens s hs hid
          hopen).1
        rw [before] at hafter
        exact ⟨(List.forall_mem_cons.1 hrest).1, hafter⟩
  | @alt pre post e e' s s₁ s' before _ ih =>
    suffices hpart : Arrives ctx id (.alt (pre ++ e :: post)) s e (s₁.moveTo id (s.cursor id)) from
      hpart.trans hid ih
    refine ⟨?_, fun hrules htidy hopen => ?_⟩
    · have hnoted : s.Extends id s.noteAlternation := (RunState.Extends.refl hs).congr rfl rfl
      obtain ⟨hext, -, -⟩ := Step.trials_spec (hsteps pre) (s.cursor id) hnoted.wellFormed hid
        (rfl : (s.node id).children.length = _)
      rw [before] at hext
      exact (hnoted.trans hid hext).moveTo hid (s.cursor id)
    · cases htidy with
      | alt htidy =>
        obtain ⟨hpre, hrest⟩ := List.forall_mem_append.1 htidy
        have hafter := (Step.tidy_trials (hsteps pre) (htidies hrules pre hpre) (s.cursor id)
          (s := s.noteAlternation) hs hid hopen (rfl : (s.node id).children.length = _)).1
        rw [before] at hafter
        exact ⟨(List.forall_mem_cons.1 hrest).1, Step.open_moveTo hafter _⟩
  | many _ ih =>
    refine Arrives.trans ⟨.refl hs, fun _ htidy hopen => ⟨?_, hopen⟩⟩ hid ih
    cases htidy
    assumption
  | @turn e e' s s₁ s' before _ _ ih =>
    obtain ⟨hext, hopens⟩ := arrives_step hs hid before
    refine Arrives.trans ⟨hext, fun hrules htidy hopen => ⟨htidy, ?_⟩⟩ hid ih
    cases htidy with
    | many he => exact hopens hrules he hopen
  | tally _ ih =>
    refine Arrives.trans ⟨.refl hs, fun _ htidy hopen => ⟨?_, hopen⟩⟩ hid ih
    cases htidy with
    | tally h => exact .many h
  | counted _ ih =>
    refine Arrives.trans ⟨.refl hs, fun _ htidy hopen => ⟨?_, hopen⟩⟩ hid ih
    cases htidy with
    | counted h => exact .many h
  | not _ ih =>
    refine Arrives.trans ⟨.refl hs, fun _ htidy hopen => ⟨?_, hopen⟩⟩ hid ih
    cases htidy
    assumption
  | test _ ih =>
    refine Arrives.trans ⟨.refl hs, fun _ htidy hopen => ⟨?_, hopen⟩⟩ hid ih
    cases htidy
    assumption
  | @yes e yes no e' s s₁ s' before _ ih =>
    obtain ⟨hext, hopens⟩ := arrives_step hs hid before
    refine Arrives.trans ⟨hext, fun hrules htidy hopen => ?_⟩ hid ih
    cases htidy with
    | ifElse he hyes _ _ => exact ⟨hyes, hopens hrules he hopen⟩
  | @no e yes no e' s s₁ s' before _ ih =>
    obtain ⟨hext, hopens⟩ := arrives_step hs hid before
    refine Arrives.trans ⟨hext, fun hrules htidy hopen => ?_⟩ hid ih
    cases htidy with
    | ifElse he _ hno _ => exact ⟨hno, hopens hrules he hopen⟩

end Expr

namespace Context

variable {ctx : Context} {rule : String} {left id : Nat} {s s₀ : RunState} {body : Expr}
  {es : List Expr}

/-- Where bodies are tidy, a rule is called on an open node. -/
theorem Calls.opens (h : ctx.Calls rule left id s) (hrules : ctx.Tidy) : s.tree.Open id := by
  induction h with
  | root =>
    refine ⟨fun q hq => ?_, rfl⟩
    cases q with
    | zero => cases hq
    | succ q =>
      rw [Tree.children_of_size_le (Nat.succ_le_succ (Nat.zero_le q))]
      simp
  | @nested left id child s s' body caller _ found call ih =>
    obtain ⟨hwf, hid⟩ := caller.wellFormed
    obtain ⟨c, e', s₁, hcomes, rfl, rfl⟩ := call.comes
    obtain ⟨hext, hopens⟩ := hcomes.arrives (s := s.enter id (ctx.limit - left)) hwf hid
    obtain ⟨-, hopen⟩ := hopens hrules (hrules _ body found) ih
    have hid₁ := Nat.lt_of_lt_of_le hid hext.size_le
    obtain ⟨hclean, -, hchild, -⟩ := Step.open_grow ctx c hext.wellFormed hid₁ hopen
    exact ⟨hclean, hchild⟩

/-- Every alternation of every run ranks its candidates by the nodes that they keep, blank ones
apart, and not only by those that matched: the two numbers are the same just if all nodes that are
kept have matched. Where bodies are tidy they are, unless something went wrong. -/
theorem weight_of_ranked_candidate (hcall : ctx.Calls rule (left + 1) id s₀)
    (hbody : ctx.rules.rule? (s₀.node id).name = some body)
    (hcomes : body.Comes ctx (ctx.attempt left) id (s₀.enter id (ctx.limit - left)) (.alt es) s) :
    let rs := Expr.steps ctx (ctx.attempt left) id es
    let tried := (Step.tried id rs s rs.length).moveTo id (s.cursor id)
    let candidates := Step.ranked tried.tree.weight 1 (Step.contest id rs s)
    (Expr.alt es).step ctx (ctx.attempt left) id s =
      Step.settle id (s.cursor id) (Step.contest id rs s, Step.tried id rs s rs.length) ∧
    ∀ x ∈ candidates,
      x.weight = tried.tree.countBelow x.trial.children true +
        tried.tree.countBelow x.trial.children false ∧
      (x.weight = tried.tree.countBelow x.trial.children true ↔
        ∀ c ∈ x.trial.children, ∀ n ∈ tried.tree.descendants c,
          (tried.node n).name ≠ blankName → (tried.node n).matched = true) ∧
      (ctx.Tidy → tried.fault = none →
        x.weight = tried.tree.countBelow x.trial.children true) := by
  intro rs tried candidates
  refine ⟨Step.alternation_eq id rs s, fun x hx => ?_⟩
  have hadd : x.weight = tried.tree.countBelow x.trial.children true +
      tried.tree.countBelow x.trial.children false :=
    (Step.weight_of_ranked hx).trans (tried.tree.totalWeight_eq_add _)
  have hiff : x.weight = tried.tree.countBelow x.trial.children true ↔
      ∀ c ∈ x.trial.children, ∀ n ∈ tried.tree.descendants c,
        (tried.node n).name ≠ blankName → (tried.node n).matched = true := by
    rw [hadd, Nat.add_eq_left]
    exact Tree.countBelow_false_eq_zero
  refine ⟨hadd, hiff, fun hrules hfault => hiff.2 fun c hc n hn _ => ?_⟩
  obtain ⟨hwf₀, hid₀⟩ := hcall.wellFormed
  obtain ⟨hext, hopens⟩ := hcomes.arrives hwf₀ hid₀
  obtain ⟨htidy, hopen⟩ := hopens hrules (hrules _ body hbody) (hcall.opens hrules)
  have hid := Nat.lt_of_lt_of_le hid₀ hext.size_le
  have hlocal := Expr.local_steps ctx id (ctx.local_attempt left) es
  have hsteps := Expr.tidy_steps ctx id (marks_attempt hrules left) es (by cases htidy; assumption)
  obtain ⟨hopen', hmatched⟩ := Step.tidy_trials hlocal hsteps (s.cursor id)
    (s := s.noteAlternation) hext.wellFormed hid hopen (rfl : (s.node id).children.length = _)
  rw [← Step.tried_length id rs s] at hopen' hmatched
  obtain ⟨htrial, hok⟩ := Step.mem_of_ranked hx
  have hwf : tried.tree.WellFormed :=
    (Step.tried_spec hlocal hext.wellFormed hid rs.length).1.wellFormed.modify rfl rfl
  have hchild : (tried.node c).matched = true :=
    (Step.node_moveTo _ id _ c).2.trans (hmatched hfault _ htrial hok c hc)
  exact (Step.open_moveTo hopen' _).clean.of_reaches hchild (hwf.mem_descendants.1 hn)

/-- A rule that tries a letter, or else another one and then the same letter. -/
def swayed : Context where
  source := .ofString "a"
  rules := .merge .empty .empty (.ofList [
    ("ROOT", .alt [.ref "A", .any [.ref "X", .ref "A"]]), ("A", .byte (.single 97)),
    ("X", .byte (.single 98))])

/-- Both candidates keep one node that matched. The second also keeps the call that failed, which
makes it the heavier one; so it is adopted, and the run is not valid. -/
theorem weight_of_ranked_candidate_swayed :
    let es : List Expr := [.ref "A", .any [.ref "X", .ref "A"]]
    let s := (RunState.start swayed "ROOT").enter Tree.root (swayed.limit - 255)
    let rs := Expr.steps swayed (swayed.attempt 255) Tree.root es
    let tried := (Step.tried Tree.root rs s rs.length).moveTo Tree.root (s.cursor Tree.root)
    swayed.Calls "ROOT" 256 Tree.root (.start swayed "ROOT") ∧
      swayed.rules.rule? "ROOT" = some (.alt es) ∧
      (Expr.alt es).Comes swayed (swayed.attempt 255) Tree.root s (.alt es) s ∧
      (Step.ranked tried.tree.weight 1 (Step.contest Tree.root rs s)).map
        (fun x => (x.number, x.weight, tried.tree.countBelow x.trial.children true)) =
          [(1, 1, 1), (2, 2, 1)] ∧
      (swayed.rawParse "ROOT").toOption.map RawParse.valid = some false := by
  intro es s rs tried
  exact ⟨.root, rfl, .here _ s, by decide +kernel, by decide +kernel⟩

/-- A rule that tries one letter, or as many as there are. -/
def lettered : Context where
  source := .ofString "aa"
  rules := .merge .empty .empty (.ofList [
    ("ROOT", .alt [.ref "A", .many (.ref "A")]), ("A", .byte (.single 97))])

theorem tidy_lettered : lettered.Tidy := by
  intro name body hrule
  obtain ⟨e, he, rfl⟩ := RuleIndex.mem_of_rule? hrule
  have hmem : e.2.rule ∈ [Expr.alt [.ref "A", .many (.ref "A")], .byte (.single 97)] :=
    List.mem_map_of_mem (f := fun e => e.2.rule) he
  simp only [List.mem_cons, List.not_mem_nil, or_false] at hmem
  obtain hroot | hletter := hmem
  · rw [hroot]
    refine .alt (List.forall_mem_cons.2 ⟨.ref "A", List.forall_mem_singleton.2 ?_⟩)
    exact .many (.ref "A")
  · rw [hletter]
    exact .byte _

/-- The call that ends the repetition is not among what the candidate keeps. -/
theorem weight_of_ranked_candidate_lettered :
    let es : List Expr := [.ref "A", .many (.ref "A")]
    let s := (RunState.start lettered "ROOT").enter Tree.root (lettered.limit - 255)
    let rs := Expr.steps lettered (lettered.attempt 255) Tree.root es
    let tried := (Step.tried Tree.root rs s rs.length).moveTo Tree.root (s.cursor Tree.root)
    let candidates := Step.ranked tried.tree.weight 1 (Step.contest Tree.root rs s)
    lettered.Tidy ∧ tried.tree.size = 5 ∧ candidates.map (fun x => x.weight) = [1, 2] ∧
      ∀ x ∈ candidates, x.weight = tried.tree.countBelow x.trial.children true := by
  intro es s rs tried candidates
  obtain ⟨-, hcandidates⟩ := @weight_of_ranked_candidate lettered "ROOT" 255 Tree.root s
    (.start lettered "ROOT") (.alt es) es .root rfl (.here (.alt es) s)
  exact ⟨tidy_lettered, by decide +kernel, by decide +kernel,
    fun x hx => (hcandidates x hx).2.2 tidy_lettered (by decide +kernel)⟩

end Context

end RankedGrammar
