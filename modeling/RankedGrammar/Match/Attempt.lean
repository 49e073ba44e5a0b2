import RankedGrammar.Match.Combinator
import RankedGrammar.Match.Terminal
import RankedGrammar.Text.Quoted

/-!
Running rules. A body runs by recursion on itself, given a way to run other rules; rules run by
recursion on how much deeper they may be nested.
-/
namespace RankedGrammar

inductive Call where
  | ref (rule : String)
  | named (rule caption : String)
  | lit (text : String)
deriving DecidableEq

namespace Call

def rule : Call → String
  | ref rule => rule
  | named rule _ => rule
  | lit _ => literalName

def role : Call → Role
  | ref _ => .plain
  | named _ caption => .wrapper caption
  | lit text => .literal text

/-- What is expected where the call fails; the failure of a wrapper goes unmentioned. -/
def expectation? : Call → Option String
  | ref rule => some rule
  | named _ _ => none
  | lit text => some (Text.quoted text)

end Call

/-- Records on the calling node that a call failed at its cursor, unless the node itself is
transient. -/
def Node.missed (n : Node) (src : Source) (c : Call) : Node :=
  match c.expectation? with
  | some name => if n.role.isTransient then n else n.expect src name
  | none => n

namespace Step

/-- Runs a rule as a new child. Success moves the cursor to that of the child, failure is recorded.
-/
def call (ctx : Context) (run : NodeId → Step) (id : NodeId) (c : Call) : Step := fun s =>
  match run s.tree.size (s.grow ctx id c.rule c.role) with
  | (true, s') => (true, s'.moveTo id (s'.cursor s.tree.size))
  | (false, s) => (false, s.modify id (·.missed ctx.source c))

end Step

mutual

/-- The body of a rule as a step on a node, `run` being the way to run the rules it calls. -/
def Expr.step (ctx : Context) (run : NodeId → Step) (id : NodeId) : Expr → Step
  | .ref rule => Step.call ctx run id (.ref rule)
  | .named rule caption => Step.call ctx run id (.named rule caption)
  | .lit t => Step.call ctx run id (.lit t)
  | .seq es => Step.sequence id (Expr.steps ctx run id es)
  | .alt es => Step.alternation id (Expr.steps ctx run id es)
  | .many e => fun s => (true, (Step.iterate ctx id (e.step ctx run id) s).2)
  | .tally e least => fun s =>
    match Step.iterate ctx id (e.step ctx run id) s with
    | (count, s) => (least ≤ count, s.report (.tally (s.node id).name count (s.cursor id)))
  | .counted e test => Step.counted ctx id test (e.step ctx run id)
  | .byte k => Step.own id (.byte ctx.source k)
  | .text t => Step.own id (.text ctx.source t)
  | .attached => Step.own id (.attached ctx.source)
  | .pattern p => Step.own id (.pattern ctx.source p)
  | .bytes k least => Step.own id (.bytes ctx.source k least)
  | .look k offset => Step.own id (.look ctx.source k offset)
  | .skip amount => Step.own id (.skip ctx.source amount)
  | .record t => Step.own id (.record t)
  | .expect name => Step.own id (.expect ctx.source name)
  | .atEnd => Step.own id (.atEnd ctx.source)
  | .probe label => fun s => (true, s.report (.probe (Step.snapshot ctx id label s)))
  | .not e => Step.negate (e.step ctx run id)
  | .all es => Step.all (Expr.steps ctx run id es)
  | .any es => Step.any (Expr.steps ctx run id es)
  | .ifElse e yes no => Step.ifElse (e.step ctx run id) (yes.step ctx run id) (no.step ctx run id)
  | .const b => fun s => (b, s)

def Expr.steps (ctx : Context) (run : NodeId → Step) (id : NodeId) : List Expr → List Step
  | [] => []
  | e :: es => e.step ctx run id :: Expr.steps ctx run id es

end

namespace RunState

/-- Notes that the rule of a node is not defined, and its name the first time it is met. -/
def noteUnresolved (s : RunState) (ctx : Context) (id : NodeId) : RunState :=
  let name := (s.node id).name
  let again := name ∈ s.counters.unresolved
  let s := s.report (.unresolved id name (ctx.source.position (s.node id).start) again)
  if again then s
  else
    { s with counters := { s.counters with unresolved := s.counters.unresolved ++ [name] } }

def enter (s : RunState) (id : NodeId) (depth : Nat) : RunState :=
  let s := s.report (.enter id (s.node id).name (s.node id).start depth)
  { s with counters := { s.counters with
      evaluations := s.counters.evaluations + 1
      deepest := max s.counters.deepest depth } }

/-- Notes how the rule of a node ended. After a fault nothing counts as matched. -/
def leave (id : NodeId) : Bool × RunState → Bool × RunState
  | (ok, s) =>
    let matched := ok && s.fault.isNone
    let s := s.modify id fun n => { n with matched }
    (matched, s.report (.leave id (s.node id).name matched (s.node id).start (s.node id).point))

def giveUp (s : RunState) (ctx : Context) (id : NodeId) : RunState :=
  let name := (s.node id).name
  { s.report (.tooDeep id name ctx.limit) with fault := some ⟨ctx.limit, name⟩ }

end RunState

/-- Runs the rule of a node with `left` levels to go. A rule that is not defined does not match. -/
def Context.attempt (ctx : Context) : Nat → NodeId → Step
  | 0, id => fun s => if s.fault.isSome then (false, s) else (false, s.giveUp ctx id)
  | left + 1, id => fun s =>
    if s.fault.isSome then (false, s)
    else
      match ctx.rules.rule? (s.node id).name with
      | none => (false, s.noteUnresolved ctx id)
      | some body =>
        RunState.leave id (body.step ctx (ctx.attempt left) id (s.enter id (ctx.limit - left)))

end RankedGrammar
