import RankedGrammar.Proofs.Match.Frame
import RankedGrammar.Proofs.Tree.Branch

/-!
Rules at work on branches instead of a table. A sprout is a node with all below it, without numbers
and links; a rule makes one out of another, and nothing at all when rules are nested too deeply.
-/
namespace RankedGrammar

/-- The node without its links. -/
def Node.bare (n : Node) : Node := { n with parent := none, children := [] }

abbrev Sprout := Branch Node

namespace Sprout

def moveTo (b : Sprout) (point : Nat) : Sprout := .mk { b.label with point } b.branches

def cursor (b : Sprout) : Nat := b.label.point

def weight (b : Sprout) : Nat := b.preorder.countP fun n => n.name ≠ blankName

def expected (b : Sprout) : Expectations := b.preorder.foldl (fun e n => e.merge n.expected) .empty

def expectedOf (bs : List Sprout) : Expectations := bs.foldl (fun e b => e.merge b.expected) .empty

end Sprout

/-- A part of a rule at work on a sprout: it says whether it succeeds. -/
abbrev Growth := Sprout → Option (Bool × Sprout)

namespace Growth
open Step (Trial ranked heaviest)

def const (ok : Bool) : Growth := fun b => some (ok, b)

def own (f : Terminal) : Growth := fun b => some ((f b.label).1, .mk (f b.label).2 b.branches)

def all : List Growth → Growth
  | [], b => some (true, b)
  | g :: gs, b =>
    match g b with
    | some (true, b) => all gs b
    | some (false, b) => some (false, b)
    | none => none

def any : List Growth → Growth
  | [], b => some (false, b)
  | g :: gs, b =>
    match g b with
    | some (true, b) => some (true, b)
    | some (false, b) => any gs b
    | none => none

def ifElse (g yes no : Growth) : Growth := fun b =>
  match g b with
  | some (true, b) => yes b
  | some (false, b) => no b
  | none => none

def negate (g : Growth) : Growth := fun b =>
  match g b with
  | some (ok, b) => some (!ok, b)
  | none => none

def sequence (gs : List Growth) : Growth := fun b =>
  match all gs b with
  | some (true, b') => some (true, b')
  | some (false, b') => some (false, b'.moveTo b.cursor)
  | none => none

/-- Every candidate from `point`, without the branches that the others put after the first `base`.
-/
def trials (point base : Nat) : List Growth → Sprout → Option (List (Trial Sprout) × Sprout)
  | [], b => some ([], b)
  | g :: gs, b =>
    match g (b.moveTo point) with
    | some (matched, b) =>
      match trials point base gs (.mk b.label (b.branches.take base)) with
      | some (rest, b') => some (⟨matched, b.cursor, b.branches.drop base⟩ :: rest, b')
      | none => none
    | none => none

/-- The heaviest success, put in place. -/
def settle (point : Nat) (ts : List (Trial Sprout)) (b : Sprout) : Bool × Sprout :=
  match heaviest (ranked Sprout.weight 1 ts) with
  | some best =>
    (true, .mk { b.label with point := best.trial.point } (b.branches ++ best.trial.children))
  | none =>
    (false, .mk ({ b.label with point }.addExpected (Sprout.expectedOf (ts.flatMap Trial.children)))
      b.branches)

def alternation (gs : List Growth) : Growth := fun b =>
  match trials b.cursor b.branches.length gs b with
  | some (ts, b') => some (settle b.cursor ts b')
  | none => none

def takeBack (point base : Nat) (b : Sprout) : Sprout :=
  .mk { b.label.addExpected (Sprout.expectedOf (b.branches.drop base)) with point }
    (b.branches.take base)

def turns (g : Growth) : Nat → Nat → Sprout → Option (Nat × Sprout)
  | 0, count, b => some (count, b)
  | fuel + 1, count, b =>
    match g b with
    | some (matched, b') =>
      if matched && b.cursor < b'.cursor then turns g fuel (count + 1) b'
      else some (count, takeBack b.cursor b.branches.length b')
    | none => none

def iterate (src : Source) (g : Growth) (b : Sprout) : Option (Nat × Sprout) :=
  turns g (src.size - b.cursor + 1) 0 b

def counted (src : Source) (test : Nat → Bool) (g : Growth) : Growth := fun b =>
  match iterate src g b with
  | some (count, b) => some (test count, b)
  | none => none

/-- The new branch of a call before its rule is run. -/
def seed (ctx : Context) (c : Call) (start : Nat) : Sprout :=
  .mk (.fresh c.rule none c.role (ctx.rules.rule? c.rule).isSome start) []

def call (ctx : Context) (grow : Growth) (c : Call) : Growth := fun b =>
  match grow (seed ctx c b.cursor) with
  | some (true, child) =>
    some (true, .mk { b.label with point := child.cursor } (b.branches ++ [child]))
  | some (false, child) => some (false, .mk (b.label.missed ctx.source c) (b.branches ++ [child]))
  | none => none

end Growth

mutual

def Expr.growth (ctx : Context) (grow : Growth) : Expr → Growth
  | .ref rule => Growth.call ctx grow (.ref rule)
  | .named rule caption => Growth.call ctx grow (.named rule caption)
  | .lit t => Growth.call ctx grow (.lit t)
  | .seq es => Growth.sequence (Expr.growths ctx grow es)
  | .alt es => Growth.alternation (Expr.growths ctx grow es)
  | .many e => Growth.counted ctx.source (fun _ => true) (e.growth ctx grow)
  | .tally e least => Growth.counted ctx.source (fun count => least ≤ count) (e.growth ctx grow)
  | .counted e test => Growth.counted ctx.source test (e.growth ctx grow)
  | .byte k => Growth.own (.byte ctx.source k)
  | .text t => Growth.own (.text ctx.source t)
  | .attached => Growth.own (.attached ctx.source)
  | .pattern p => Growth.own (.pattern ctx.source p)
  | .bytes k least => Growth.own (.bytes ctx.source k least)
  | .look k offset => Growth.own (.look ctx.source k offset)
  | .skip amount => Growth.own (.skip ctx.source amount)
  | .record t => Growth.own (.record t)
  | .expect name => Growth.own (.expect ctx.source name)
  | .atEnd => Growth.own (.atEnd ctx.source)
  | .probe _ => Growth.const true
  | .not e => Growth.negate (e.growth ctx grow)
  | .all es => Growth.all (Expr.growths ctx grow es)
  | .any es => Growth.any (Expr.growths ctx grow es)
  | .ifElse e yes no =>
    Growth.ifElse (e.growth ctx grow) (yes.growth ctx grow) (no.growth ctx grow)
  | .const ok => Growth.const ok

def Expr.growths (ctx : Context) (grow : Growth) : List Expr → List Growth
  | [] => []
  | e :: es => e.growth ctx grow :: Expr.growths ctx grow es

end

/-- The rule of the node at the bottom, with `left` levels to go. -/
def Context.grow (ctx : Context) : Nat → Growth
  | 0 => fun _ => none
  | left + 1 => fun b =>
    match ctx.rules.rule? b.label.name with
    | none => some (false, b)
    | some body =>
      match body.growth ctx (ctx.grow left) b with
      | some (ok, b) => some (ok, .mk { b.label with matched := ok } b.branches)
      | none => none

theorem Context.grow_zero (ctx : Context) (b : Sprout) : ctx.grow 0 b = none := rfl

theorem Context.grow_succ (ctx : Context) (left : Nat) (b : Sprout) :
    ctx.grow (left + 1) b =
      match ctx.rules.rule? b.label.name with
      | none => some (false, b)
      | some body =>
        match body.growth ctx (ctx.grow left) b with
        | some (ok, b) => some (ok, .mk { b.label with matched := ok } b.branches)
        | none => none := rfl

theorem Context.matched_of_grow {ctx : Context} {left : Nat} {b b' : Sprout} {ok : Bool}
    (hb : b.label.matched = false) (h : ctx.grow left b = some (ok, b')) :
    b'.label.matched = ok := by
  cases left with
  | zero => cases h
  | succ left =>
    rw [grow_succ] at h
    split at h
    · cases h
      exact hb
    · split at h
      · cases h
        rfl
      · cases h

/-- What a rule makes is made by its body, with a level less to go. -/
theorem Context.exists_of_grow {ctx : Context} {left : Nat} {b b' : Sprout} {ok : Bool}
    {body : Expr} (hrule : ctx.rules.rule? b.label.name = some body)
    (h : ctx.grow left b = some (ok, b')) :
    ∃ below b₁, left = below + 1 ∧ body.growth ctx (ctx.grow below) b = some (ok, b₁) ∧
      b' = .mk { b₁.label with matched := ok } b₁.branches := by
  cases left with
  | zero => cases h
  | succ below =>
    rw [grow_succ, hrule] at h
    dsimp only at h
    cases hbody : body.growth ctx (ctx.grow below) b with
    | none =>
      rw [hbody] at h
      cases h
    | some grown =>
      obtain ⟨ok₁, b₁⟩ := grown
      rw [hbody] at h
      cases h
      exact ⟨below, b₁, rfl, hbody, rfl⟩

namespace Growth
open Step (Trial ranked heaviest)

variable {g : Growth} {gs : List Growth} {ok : Bool} {b b' : Sprout}

/-! What a growth does after the result of another decides what negations and lists of them do. -/

theorem all_cons (g : Growth) (gs : List Growth) :
    all (g :: gs) = ifElse g (all gs) (const false) :=
  rfl

theorem any_cons (g : Growth) (gs : List Growth) : any (g :: gs) = ifElse g (const true) (any gs) :=
  rfl

theorem negate_eq (g : Growth) : negate g = ifElse g (const false) (const true) := by
  funext b
  unfold negate ifElse
  cases g b with
  | none => rfl
  | some grown =>
    obtain ⟨ok, b'⟩ := grown
    cases ok <;> rfl

theorem exists_of_ifElse {yes no : Growth} (h : ifElse g yes no b = some (ok, b')) :
    (∃ b₁, g b = some (true, b₁) ∧ yes b₁ = some (ok, b')) ∨
      ∃ b₁, g b = some (false, b₁) ∧ no b₁ = some (ok, b') := by
  unfold ifElse at h
  cases hg : g b with
  | none =>
    rw [hg] at h
    cases h
  | some grown =>
    obtain ⟨ok₁, b₁⟩ := grown
    rw [hg] at h
    cases ok₁ with
    | true => exact .inl ⟨b₁, rfl, h⟩
    | false => exact .inr ⟨b₁, rfl, h⟩

theorem exists_of_all (h : all (g :: gs) b = some (ok, b')) :
    (ok = false ∧ g b = some (false, b')) ∨
      ∃ b₁, g b = some (true, b₁) ∧ all gs b₁ = some (ok, b') := by
  rw [all_cons] at h
  obtain ⟨b₁, hfirst, hrest⟩ | ⟨b₁, hfirst, hrest⟩ := exists_of_ifElse h
  · exact .inr ⟨b₁, hfirst, hrest⟩
  · cases hrest
    exact .inl ⟨rfl, hfirst⟩

theorem exists_of_sequence (h : sequence gs b = some (ok, b')) :
    ∃ b₁, all gs b = some (ok, b₁) ∧ b' = if ok then b₁ else b₁.moveTo b.cursor := by
  unfold sequence at h
  cases hall : all gs b with
  | none =>
    rw [hall] at h
    cases h
  | some grown =>
    obtain ⟨ok₁, b₁⟩ := grown
    rw [hall] at h
    cases ok₁ <;> cases h <;> exact ⟨_, rfl, rfl⟩

/-- A sequence succeeds if its first part does and then the sequence of the others. -/
theorem exists_of_sequence_cons (h : sequence (g :: gs) b = some (true, b')) :
    ∃ b₁, g b = some (true, b₁) ∧ sequence gs b₁ = some (true, b') := by
  obtain ⟨b₂, hall, hb'⟩ := exists_of_sequence h
  rw [if_pos rfl] at hb'
  subst hb'
  obtain ⟨hok, -⟩ | ⟨b₁, hfirst, hrest⟩ := exists_of_all hall
  · cases hok
  · refine ⟨b₁, hfirst, ?_⟩
    unfold sequence
    rw [hrest]

theorem exists_of_alternation (h : alternation gs b = some (ok, b')) :
    ∃ ts b₁, trials b.cursor b.branches.length gs b = some (ts, b₁) ∧
      settle b.cursor ts b₁ = (ok, b') := by
  unfold alternation at h
  cases htrials : trials b.cursor b.branches.length gs b with
  | none =>
    rw [htrials] at h
    cases h
  | some grown =>
    obtain ⟨ts, b₁⟩ := grown
    rw [htrials] at h
    exact ⟨ts, b₁, rfl, Option.some.inj h⟩

/-- A success among the trials is adopted, or there is none. -/
theorem exists_of_settle {point : Nat} {ts : List (Trial Sprout)}
    (h : settle point ts b = (ok, b')) :
    (∃ t ∈ ts, t.matched = true ∧ ok = true ∧
        b' = .mk { b.label with point := t.point } (b.branches ++ t.children)) ∨
      ok = false ∧ b' = .mk ({ b.label with point }.addExpected
        (Sprout.expectedOf (ts.flatMap Trial.children))) b.branches := by
  unfold settle at h
  cases hbest : heaviest (ranked Sprout.weight 1 ts) with
  | none =>
    rw [hbest] at h
    cases h
    exact .inr ⟨rfl, rfl⟩
  | some best =>
    rw [hbest] at h
    cases h
    obtain ⟨hmem, hmatched⟩ := Step.mem_of_ranked (Step.mem_of_heaviest hbest)
    exact .inl ⟨best.trial, hmem, hmatched, rfl, rfl⟩

/-- A turn that succeeds and advances is followed by others; the last turn is taken back. -/
theorem exists_of_turns {fuel count count' : Nat}
    (h : turns g (fuel + 1) count b = some (count', b')) :
    ∃ matched b₁, g b = some (matched, b₁) ∧
      (matched = true ∧ b.cursor < b₁.cursor ∧ turns g fuel (count + 1) b₁ = some (count', b') ∨
        ¬ (matched = true ∧ b.cursor < b₁.cursor) ∧
          b' = takeBack b.cursor b.branches.length b₁) := by
  rw [turns] at h
  cases hturn : g b with
  | none =>
    rw [hturn] at h
    cases h
  | some grown =>
    obtain ⟨matched, b₁⟩ := grown
    refine ⟨matched, b₁, rfl, ?_⟩
    rw [hturn] at h
    dsimp only at h
    by_cases hon : (matched && b.cursor < b₁.cursor) = true
    · rw [if_pos hon] at h
      obtain ⟨hmatched, hlt⟩ := Bool.and_eq_true_iff.1 hon
      exact .inl ⟨hmatched, of_decide_eq_true hlt, h⟩
    · rw [if_neg hon] at h
      cases h
      exact .inr ⟨by simpa using hon, rfl⟩

theorem exists_of_counted {src : Source} {test : Nat → Bool}
    (h : counted src test g b = some (ok, b')) :
    ∃ count, ok = test count ∧ iterate src g b = some (count, b') := by
  unfold counted at h
  cases hturns : iterate src g b with
  | none =>
    rw [hturns] at h
    cases h
  | some grown =>
    rw [hturns] at h
    cases h
    exact ⟨_, rfl, rfl⟩

theorem call_eq {ctx : Context} {grow : Growth} {c : Call} {child : Sprout}
    (h : grow (seed ctx c b.cursor) = some (ok, child)) :
    call ctx grow c b = some (ok,
      .mk (if ok then { b.label with point := child.cursor } else b.label.missed ctx.source c)
        (b.branches ++ [child])) := by
  unfold call
  rw [h]
  cases ok <;> rfl

theorem exists_of_call {ctx : Context} {grow : Growth} {c : Call}
    (h : call ctx grow c b = some (ok, b')) :
    ∃ child, grow (seed ctx c b.cursor) = some (ok, child) ∧
      b' = .mk (if ok then { b.label with point := child.cursor } else b.label.missed ctx.source c)
        (b.branches ++ [child]) := by
  cases hgrow : grow (seed ctx c b.cursor) with
  | none =>
    unfold call at h
    rw [hgrow] at h
    cases h
  | some grown =>
    obtain ⟨ok₁, child⟩ := grown
    rw [call_eq hgrow] at h
    cases h
    exact ⟨child, rfl, rfl⟩

/-- The trial is a run of the candidate from `point` on a sprout with a property. -/
def Tried (P : Sprout → Prop) (point base : Nat) (g : Growth) (t : Trial Sprout) : Prop :=
  ∃ b b', b.cursor = point ∧ P b ∧ g b = some (t.matched, b') ∧ t.point = b'.cursor ∧
    t.children = b'.branches.drop base

/-- Every candidate has a trial and every trial a candidate. What the candidates are run on is told
from what they keep. -/
theorem tried_of_trials {P : Sprout → Prop} {point base : Nat} {ts : List (Trial Sprout)}
    (hmove : ∀ b, P b → P (b.moveTo point))
    (hkeep : ∀ g ∈ gs, ∀ b ok b', b.cursor = point → P b → g b = some (ok, b') →
      P (.mk b'.label (b'.branches.take base)))
    (hb : P b) (hrun : trials point base gs b = some (ts, b')) :
    P b' ∧ (∀ t ∈ ts, ∃ g ∈ gs, Tried P point base g t) ∧
      ∀ g ∈ gs, ∃ t ∈ ts, Tried P point base g t := by
  induction gs generalizing b ts with
  | nil =>
    cases hrun
    exact ⟨hb, by simp, by simp⟩
  | cons g gs ih =>
    rw [trials] at hrun
    cases hg : g (b.moveTo point) with
    | none =>
      rw [hg] at hrun
      cases hrun
    | some grown =>
      obtain ⟨matched, b₁⟩ := grown
      have hb₁ := hkeep g List.mem_cons_self _ matched b₁ rfl (hmove b hb) hg
      rw [hg] at hrun
      dsimp only at hrun
      cases hrest : trials point base gs (.mk b₁.label (b₁.branches.take base)) with
      | none =>
        rw [hrest] at hrun
        cases hrun
      | some grown =>
        obtain ⟨rest, b₂⟩ := grown
        rw [hrest] at hrun
        cases hrun
        obtain ⟨hb', hts, hgs⟩ := ih (fun x hx => hkeep x (List.mem_cons_of_mem g hx)) hb₁ hrest
        have hfirst : Tried P point base g ⟨matched, b₁.cursor, b₁.branches.drop base⟩ :=
          ⟨b.moveTo point, b₁, rfl, hmove b hb, hg, rfl, rfl⟩
        refine ⟨hb', ?_, ?_⟩
        · rw [List.forall_mem_cons]
          refine ⟨⟨g, List.mem_cons_self, hfirst⟩, fun t ht => ?_⟩
          obtain ⟨x, hx, htried⟩ := hts t ht
          exact ⟨x, List.mem_cons_of_mem g hx, htried⟩
        · rw [List.forall_mem_cons]
          refine ⟨⟨_, List.mem_cons_self, hfirst⟩, fun x hx => ?_⟩
          obtain ⟨t, ht, htried⟩ := hgs x hx
          exact ⟨t, List.mem_cons_of_mem _ ht, htried⟩

end Growth

theorem Expr.exists_of_ref {ctx : Context} {left : Nat} {name : String} {body : Expr}
    {b b' : Sprout} {ok : Bool} (hrule : ctx.rules.rule? name = some body)
    (h : (Expr.ref name).growth ctx (ctx.grow left) b = some (ok, b')) :
    ∃ below b₁, left = below + 1 ∧
      body.growth ctx (ctx.grow below) (Growth.seed ctx (.ref name) b.cursor) = some (ok, b₁) ∧
      (ok = true → b'.cursor = b₁.cursor) := by
  obtain ⟨child, hgrow, rfl⟩ := Growth.exists_of_call h
  obtain ⟨below, b₁, rfl, hrun, rfl⟩ := Context.exists_of_grow hrule hgrow
  refine ⟨below, b₁, rfl, hrun, fun hok => ?_⟩
  rw [if_pos hok]
  rfl

theorem Call.growth_body (c : Call) (ctx : Context) (grow : Growth) :
    c.body.growth ctx grow = Growth.call ctx grow c := by
  cases c <;> rfl

namespace Expr

variable {ctx : Context} {grow : Growth} {e : Expr} {es : List Expr} {b b' : Sprout} {ok : Bool}

theorem growths_eq (ctx : Context) (grow : Growth) (es : List Expr) :
    growths ctx grow es = es.map (growth ctx grow) := by
  induction es with
  | nil => rfl
  | cons e es ih => rw [growths, ih, List.map_cons]

theorem forall_mem_growths {P : Growth → Prop} (h : ∀ e ∈ es, P (e.growth ctx grow)) :
    ∀ g ∈ growths ctx grow es, P g := by
  rw [growths_eq]
  exact List.forall_mem_map.2 h

theorem Own.growth_eq {f : Terminal} (h : e.Own ctx.source f) (grow : Growth) :
    e.growth ctx grow = Growth.own f := by
  cases h <;> rfl

theorem exists_of_many (h : (Expr.many e).growth ctx grow b = some (ok, b')) :
    ok = true ∧ ∃ count, Growth.iterate ctx.source (e.growth ctx grow) b = some (count, b') := by
  obtain ⟨count, hok, hturns⟩ := Growth.exists_of_counted h
  exact ⟨hok, count, hturns⟩

end Expr

end RankedGrammar
