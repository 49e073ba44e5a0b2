import RankedGrammar.Match.State

/-!
Ways to put steps together. A sequence that fails puts the cursor back; an alternation runs every
candidate from one place and adopts the heaviest success, the earliest of equals; a repetition
takes back its last turn. What failed attempts expected is kept in every case.
-/
namespace RankedGrammar.Step

/-- In order up to the first failure, undoing nothing. -/
def all : List Step → Step
  | [], s => (true, s)
  | r :: rs, s =>
    match r s with
    | (true, s) => all rs s
    | (false, s) => (false, s)

/-- In order up to the first success, undoing nothing. -/
def any : List Step → Step
  | [], s => (false, s)
  | r :: rs, s =>
    match r s with
    | (true, s) => (true, s)
    | (false, s) => any rs s

def ifElse (r yes no : Step) : Step := fun s =>
  match r s with
  | (true, s) => yes s
  | (false, s) => no s

def negate (r : Step) : Step := fun s =>
  match r s with
  | (ok, s) => (!ok, s)

def rewind (id : NodeId) (point : Nat) : Bool × RunState → Bool × RunState
  | (true, s) => (true, s)
  | (false, s) => (false, s.moveTo id point)

def sequence (id : NodeId) (rs : List Step) : Step := fun s => rewind id (s.cursor id) (all rs s)

structure Trial (κ : Type) where
  matched : Bool
  point : Nat
  children : List κ

/-- Runs every candidate with the cursor at `point`, taking away the children that it adds to the
first `base`. -/
def trials (id : NodeId) (point base : Nat) : List Step → RunState → List (Trial NodeId) × RunState
  | [], s => ([], s)
  | r :: rs, s =>
    match r (s.moveTo id point) with
    | (matched, s) =>
      let trial : Trial NodeId := ⟨matched, s.cursor id, s.childrenFrom id base⟩
      match trials id point base rs (s.keepChildren id base) with
      | (rest, s) => (trial :: rest, s)

/-- A success with its place among the candidates, counted from one, and its weight. -/
structure Ranked (κ : Type) where
  number : Nat
  weight : Nat
  trial : Trial κ

def totalWeight {κ : Type} (weight : κ → Nat) : List κ → Nat
  | [] => 0
  | child :: rest => weight child + totalWeight weight rest

def ranked {κ : Type} (weight : κ → Nat) : Nat → List (Trial κ) → List (Ranked κ)
  | _, [] => []
  | number, trial :: rest =>
    if trial.matched then
      ⟨number, totalWeight weight trial.children, trial⟩ :: ranked weight (number + 1) rest
    else ranked weight (number + 1) rest

/-- The heaviest, of equals the earliest. -/
def heaviest {κ : Type} : List (Ranked κ) → Option (Ranked κ)
  | [] => none
  | r :: rs =>
    match heaviest rs with
    | none => some r
    | some best => if r.weight < best.weight then some best else some r

/-- Makes the outcome of an alternation of the candidates run from `point`. After a fault nothing
is adopted. -/
def settle (id : NodeId) (point : Nat) : List (Trial NodeId) × RunState → Bool × RunState
  | (ts, s) =>
    let s := s.moveTo id point
    if s.fault.isSome then (false, s)
    else
      match heaviest (ranked s.tree.weight 1 ts) with
      | some best =>
        let s := s.report (.adopt id (s.node id).name best.number ts.length best.weight)
        (true, (s.addChildren id best.trial.children).moveTo id best.trial.point)
      | none => (false, s.addExpected id (s.expectedOf (ts.flatMap (·.children))))

def alternation (id : NodeId) (rs : List Step) : Step := fun s =>
  settle id (s.cursor id)
    (trials id (s.cursor id) (s.node id).children.length rs s.noteAlternation)

/-- Takes back a turn that began at `point` with `base` children. -/
def takeBack (id : NodeId) (point base : Nat) (s : RunState) : RunState :=
  let dropped := s.childrenFrom id base
  ((s.keepChildren id base).addExpected id (s.expectedOf dropped)).moveTo id point

/-- At most `fuel` turns, after `count` that succeeded and advanced. -/
def turns (id : NodeId) (r : Step) : Nat → Nat → RunState → Nat × RunState
  | 0, count, s => (count, s)
  | fuel + 1, count, s =>
    let point := s.cursor id
    let base := (s.node id).children.length
    match r s with
    | (matched, s) =>
      if matched && point < s.cursor id then turns id r fuel (count + 1) s
      else (count, takeBack id point base s)

/-- As many turns of `r` as succeed and advance, and their number. Every counted turn advances, so
there are no more of them than bytes left, and one more turn ends the repetition. -/
def iterate (ctx : Context) (id : NodeId) (r : Step) (s : RunState) : Nat × RunState :=
  turns id r (ctx.source.size - s.cursor id + 1) 0 s

def counted (ctx : Context) (id : NodeId) (test : Nat → Bool) (r : Step) : Step := fun s =>
  match iterate ctx id r s with
  | (count, s) => (test count, s)

end RankedGrammar.Step
