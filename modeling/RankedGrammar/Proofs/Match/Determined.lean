import RankedGrammar.Proofs.Match.Call
import RankedGrammar.Rule.Language

/-!
Matching is determined by the rule and the place. A rule with more levels to go makes whatever it
makes with fewer, so two calls for the same rule, in the same way and at the same place, have the same
outcome wherever neither is spoilt by the limit.
-/
namespace RankedGrammar

def Context.withLimit (ctx : Context) (limit : Nat) : Context := { ctx with limit }

namespace Growth
open Step (Trial)

def Below (g g' : Growth) : Prop := ∀ b, g b = none ∨ g' b = g b

abbrev AllBelow : List Growth → List Growth → Prop := List.Forall₂ Below

variable {g g' : Growth} {gs gs' : List Growth}

theorem Below.refl (g : Growth) : g.Below g := fun _ => .inr rfl

theorem Below.eq (h : g.Below g') {b : Sprout} {out : Bool × Sprout} (hg : g b = some out) :
    g' b = some out := by
  cases h b with
  | inl hnone => rw [hg] at hnone; cases hnone
  | inr heq => rw [heq, hg]

theorem below_ifElse {yes yes' no no' : Growth} (h : g.Below g') (hyes : yes.Below yes')
    (hno : no.Below no') : (ifElse g yes no).Below (ifElse g' yes' no') := by
  intro b
  unfold ifElse
  cases h b with
  | inl hnone => rw [hnone]; exact .inl rfl
  | inr heq =>
    rw [heq]
    cases g b with
    | none => exact .inl rfl
    | some grown =>
      obtain ⟨ok, b'⟩ := grown
      cases ok with
      | true => exact hyes b'
      | false => exact hno b'

theorem below_negate (h : g.Below g') : (negate g).Below (negate g') := by
  rw [negate_eq, negate_eq]
  exact below_ifElse h (.refl _) (.refl _)

theorem below_all (h : AllBelow gs gs') : (all gs).Below (all gs') := by
  induction h with
  | nil => exact .refl _
  | cons hg _ ih => exact below_ifElse hg ih (.refl _)

theorem below_any (h : AllBelow gs gs') : (any gs).Below (any gs') := by
  induction h with
  | nil => exact .refl _
  | cons hg _ ih => exact below_ifElse hg (.refl _) ih

theorem below_sequence (h : AllBelow gs gs') : (sequence gs).Below (sequence gs') := by
  intro b
  unfold sequence
  cases below_all h b with
  | inl hnone => rw [hnone]; exact .inl rfl
  | inr heq => rw [heq]; exact .inr rfl

theorem below_trials (h : AllBelow gs gs') (point base : Nat) (b : Sprout) :
    trials point base gs b = none ∨ trials point base gs' b = trials point base gs b := by
  induction h generalizing b with
  | nil => exact .inr rfl
  | @cons g g' gs gs' hg _ ih =>
    rw [trials, trials]
    cases hg (b.moveTo point) with
    | inl hnone => rw [hnone]; exact .inl rfl
    | inr heq =>
      rw [heq]
      cases g (b.moveTo point) with
      | none => exact .inl rfl
      | some grown =>
        obtain ⟨matched, b'⟩ := grown
        dsimp only
        cases ih (.mk b'.label (b'.branches.take base)) with
        | inl hnone => rw [hnone]; exact .inl rfl
        | inr heq => rw [heq]; exact .inr rfl

theorem below_alternation (h : AllBelow gs gs') : (alternation gs).Below (alternation gs') := by
  intro b
  unfold alternation
  cases below_trials h b.cursor b.branches.length b with
  | inl hnone => rw [hnone]; exact .inl rfl
  | inr heq => rw [heq]; exact .inr rfl

theorem below_turns (h : g.Below g') (fuel count : Nat) (b : Sprout) :
    turns g fuel count b = none ∨ turns g' fuel count b = turns g fuel count b := by
  induction fuel generalizing count b with
  | zero => exact .inr rfl
  | succ fuel ih =>
    rw [turns, turns]
    cases h b with
    | inl hnone => rw [hnone]; exact .inl rfl
    | inr heq =>
      rw [heq]
      cases g b with
      | none => exact .inl rfl
      | some grown =>
        obtain ⟨matched, b'⟩ := grown
        dsimp only
        split
        · exact ih (count + 1) b'
        · exact .inr rfl

theorem below_counted (src : Source) (test : Nat → Bool) (h : g.Below g') :
    (counted src test g).Below (counted src test g') := by
  intro b
  unfold counted iterate
  cases below_turns h (src.size - b.cursor + 1) 0 b with
  | inl hnone => rw [hnone]; exact .inl rfl
  | inr heq => rw [heq]; exact .inr rfl

theorem below_call (ctx : Context) (limit : Nat) (h : g.Below g') (c : Call) :
    (call ctx g c).Below (call (ctx.withLimit limit) g' c) := by
  intro b
  have hseed : seed (ctx.withLimit limit) c b.cursor = seed ctx c b.cursor := rfl
  unfold call
  rw [hseed]
  cases h (seed ctx c b.cursor) with
  | inl hnone => rw [hnone]; exact .inl rfl
  | inr heq => rw [heq]; exact .inr rfl

end Growth

theorem Expr.allBelow_of_forall {ctx : Context} {limit : Nat} {grow grow' : Growth} {es : List Expr}
    (h : ∀ e ∈ es, (e.growth ctx grow).Below (e.growth (ctx.withLimit limit) grow')) :
    Growth.AllBelow (Expr.growths ctx grow es) (Expr.growths (ctx.withLimit limit) grow' es) := by
  rw [growths_eq, growths_eq]
  exact List.forall₂_map_left_iff.2 (List.forall₂_map_right_iff.2 (List.forall₂_same.2 h))

/-- A body looks at no limit, and makes whatever it makes where the rules that it calls make less.
-/
theorem Expr.below_growth (ctx : Context) (limit : Nat) {grow grow' : Growth}
    (h : grow.Below grow') (e : Expr) :
    (e.growth ctx grow).Below (e.growth (ctx.withLimit limit) grow') := by
  induction e using Expr.induct ctx.source with
  | call c =>
    rw [c.growth_body, c.growth_body]
    exact Growth.below_call ctx limit h c
  | seq es ih => exact Growth.below_sequence (allBelow_of_forall ih)
  | alt es ih => exact Growth.below_alternation (allBelow_of_forall ih)
  | many e ih => exact Growth.below_counted ctx.source _ ih
  | tally e least ih => exact Growth.below_counted ctx.source _ ih
  | counted e test ih => exact Growth.below_counted ctx.source test ih
  | @own e f hown =>
    have hown' : e.Own (ctx.withLimit limit).source f := hown
    rw [hown.growth_eq, hown'.growth_eq]
    exact .refl (Growth.own f)
  | probe label => exact .refl (Growth.const true)
  | not e ih => exact Growth.below_negate ih
  | all es ih => exact Growth.below_all (allBelow_of_forall ih)
  | any es ih => exact Growth.below_any (allBelow_of_forall ih)
  | ifElse e yes no ihe ihyes ihno => exact Growth.below_ifElse ihe ihyes ihno
  | const ok => exact .refl (Growth.const ok)

namespace Context

variable {ctx : Context}

theorem below_grow (ctx : Context) (limit : Nat) {left left' : Nat} (hle : left ≤ left') :
    (ctx.grow left).Below ((ctx.withLimit limit).grow left') := by
  induction left generalizing left' with
  | zero => exact fun b => .inl (grow_zero ctx b)
  | succ left ih =>
    cases left' with
    | zero => omega
    | succ left' =>
      intro b
      rw [grow_succ, grow_succ]
      have hrule : (ctx.withLimit limit).rules = ctx.rules := rfl
      rw [hrule]
      cases ctx.rules.rule? b.label.name with
      | none => exact .inr rfl
      | some body =>
        dsimp only
        cases Expr.below_growth ctx limit (ih (Nat.le_of_succ_le_succ hle)) body b with
        | inl hnone => rw [hnone]; exact .inl rfl
        | inr heq => rw [heq]; exact .inr rfl

/-- An attempt that goes well does what the growth does. -/
theorem grow_of_attempt {left : Nat} {id : Nat} {s : RunState} {b : Sprout} (hs : s.Shows id b)
    (hfault : (ctx.attempt left id s).2.fault = none) :
    ctx.grow left b =
      some ((ctx.attempt left id s).1, (ctx.attempt left id s).2.tree.sprout id) := by
  have hout := (simulates_attempt ctx left id).outcome s b hs
  cases hg : ctx.grow left b with
  | none =>
    rw [hg] at hout
    have hsome : (ctx.attempt left id s).2.fault.isSome = true := hout
    rw [hfault] at hsome
    cases hsome
  | some grown =>
    obtain ⟨ok, b'⟩ := grown
    rw [hg] at hout
    obtain ⟨hok, hshows⟩ := hout
    rw [hok, hshows.sprout]

/-- A call that ends well began well. -/
theorem Calls.fault_eq_none {rule : String} {left : Nat} {id : Nat} {s : RunState}
    (h : ctx.Calls rule left id s) (hfault : (ctx.attempt left id s).2.fault = none) :
    s.fault = none := by
  obtain ⟨hwf, hlt⟩ := h.wellFormed
  exact (local_attempt ctx left id s hwf hlt).fault_eq_none hfault

/-- Two calls for nodes of one name, made in the same way at the same place of a script, be it in
one run or in two, under the same limit or not, have the same outcome if the limit spoils neither:
both match or neither does, and the parts of the tables below the two nodes are the same tree of
nodes, links apart. -/
theorem attempt_eq_of_same_place {limit left left' : Nat} {rule rule' : String} {id id' : NodeId}
    {s s' : RunState} (hcall : ctx.Calls rule left id s)
    (hcall' : (ctx.withLimit limit).Calls rule' left' id' s')
    (hname : (s'.node id').name = (s.node id).name)
    (hrole : (s'.node id').role = (s.node id).role)
    (hstart : (s'.node id').start = (s.node id).start)
    (hfault : (ctx.attempt left id s).2.fault = none)
    (hfault' : ((ctx.withLimit limit).attempt left' id' s').2.fault = none) :
    ((ctx.withLimit limit).attempt left' id' s').1 = (ctx.attempt left id s).1 ∧
      ((ctx.withLimit limit).attempt left' id' s').2.tree.sprout id' =
        (ctx.attempt left id s).2.tree.sprout id := by
  have hshows := hcall.shows_fresh (hcall.fault_eq_none hfault)
  have hshows' := hcall'.shows_fresh (hcall'.fault_eq_none hfault')
  rw [hname, hrole, hstart] at hshows'
  -- with as many levels as either had, both calls make the same of the same seed
  have hmost := (below_grow ctx limit (Nat.le_max_left left left')).eq
    (grow_of_attempt hshows hfault)
  have hmost' := (below_grow (ctx.withLimit limit) limit (Nat.le_max_right left left')).eq
    (grow_of_attempt hshows' hfault')
  have heq := hmost.symm.trans hmost'
  obtain ⟨hok, hsprout⟩ := Prod.mk.inj (Option.some.inj heq)
  exact ⟨hok.symm, hsprout.symm⟩

/-- Two candidates that begin with the same call, over a source that only the second matches. -/
def rivals : Context where
  source := .ofString "ab"
  rules := .merge .empty Tokens.rules
    (.ofList [("SCRIPT", .alt [.seq [.ref "LETTER", .ref "DIGIT"], .ref "LETTER"])])

/-- The letter of a candidate given up, and that of the one adopted in a run with two levels. -/
theorem attempt_eq_of_same_place_rivals :
    ∃ (id id' : NodeId) (s s' : RunState), id ≠ id' ∧ rivals.Calls "SCRIPT" 255 id s ∧
      (rivals.withLimit 2).Calls "SCRIPT" 1 id' s' ∧
      (s'.node id').name = (s.node id).name ∧ (s'.node id').role = (s.node id).role ∧
      (s'.node id').start = (s.node id).start ∧
      (rivals.attempt 255 id s).2.fault = none ∧
      ((rivals.withLimit 2).attempt 1 id' s').2.fault = none ∧
      ((rivals.withLimit 2).attempt 1 id' s').1 = (rivals.attempt 255 id s).1 ∧
      ((rivals.withLimit 2).attempt 1 id' s').2.tree.sprout id' =
        (rivals.attempt 255 id s).2.tree.sprout id := by
  have hfound : rivals.rules.rule? "SCRIPT" =
      some (.alt [.seq [.ref "LETTER", .ref "DIGIT"], .ref "LETTER"]) := by rfl
  have hcall := Calls.nested (.root : rivals.Calls "SCRIPT" 256 Tree.root _) rfl hfound
    (@Expr.Invokes.alt _ _ _ [] _ _ _ _ _ _ rfl (@Expr.Invokes.seq _ _ _ [] _ _ _ _ _ _ rfl
      (.ref "LETTER" _)))
  have hcall' := Calls.nested (.root : (rivals.withLimit 2).Calls "SCRIPT" 2 Tree.root _) rfl hfound
    (@Expr.Invokes.alt _ _ _ [_] [] _ _ _ _ _ rfl (.ref "LETTER" _))
  refine ⟨_, _, _, _, ?_, hcall, hcall', ?_, ?_, ?_, ?_, ?_,
    attempt_eq_of_same_place hcall hcall' (by decide +kernel) (by decide +kernel)
      (by decide +kernel) (by decide +kernel) (by decide +kernel)⟩
  all_goals decide +kernel

end Context

end RankedGrammar
