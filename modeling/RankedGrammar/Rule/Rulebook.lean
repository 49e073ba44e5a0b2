/-!
Rules by name. A rulebook keeps its names in the order of their first insertion; a rule index
merges three rulebooks, of which the first that has a name decides.
-/
namespace RankedGrammar

/-- Rules under distinct names, in the order of first insertion. -/
structure Rulebook (γ : Type) where
  entries : List (String × γ)

namespace Rulebook

variable {γ : Type}

def empty : Rulebook γ := ⟨[]⟩

def get? (b : Rulebook γ) (name : String) : Option γ :=
  (b.entries.find? (·.1 = name)).map (·.2)

def contains (b : Rulebook γ) (name : String) : Bool := (b.get? name).isSome

/-- Puts a rule under a name, in the place of an earlier rule of that name. -/
def insert (b : Rulebook γ) (name : String) (rule : γ) : Rulebook γ :=
  if b.contains name then ⟨b.entries.map fun e => if e.1 = name then (name, rule) else e⟩
  else ⟨b.entries ++ [(name, rule)]⟩

/-- Puts a rule under a name, and gives the rule that it replaces. -/
def replace (b : Rulebook γ) (name : String) (rule : γ) : Option γ × Rulebook γ :=
  (b.get? name, b.insert name rule)

def ofList (rules : List (String × γ)) : Rulebook γ :=
  rules.foldl (fun b e => b.insert e.1 e.2) empty

def names (b : Rulebook γ) : List String := b.entries.map (·.1)

def size (b : Rulebook γ) : Nat := b.entries.length

def isEmpty (b : Rulebook γ) : Bool := b.entries.isEmpty

end Rulebook

/-- Where a rule comes from, highest precedence first. -/
inductive Layer where
  | override
  | primitive
  | parser
deriving DecidableEq

structure Resolution (γ : Type) where
  rule : γ
  layer : Layer

/-- A name that no layer defines. -/
structure UnknownRule where
  name : String
deriving DecidableEq

/-- The rules of three layers under distinct names. -/
structure RuleIndex (γ : Type) where
  entries : Rulebook (Resolution γ)

namespace RuleIndex

variable {γ : Type}

def empty : RuleIndex γ := ⟨.empty⟩

/-- Adds the rules of a layer, which replace those of the same names. -/
def overlay (x : RuleIndex γ) (layer : Layer) (rules : Rulebook γ) : RuleIndex γ :=
  ⟨rules.entries.foldl (fun b e => b.insert e.1 ⟨e.2, layer⟩) x.entries⟩

def merge (overrides primitives parsers : Rulebook γ) : RuleIndex γ :=
  ((empty.overlay .parser parsers).overlay .primitive primitives).overlay .override overrides

def resolution? (x : RuleIndex γ) (name : String) : Option (Resolution γ) := x.entries.get? name

def rule? (x : RuleIndex γ) (name : String) : Option γ := (x.resolution? name).map (·.rule)

def layer? (x : RuleIndex γ) (name : String) : Option Layer := (x.resolution? name).map (·.layer)

def registeredName? (x : RuleIndex γ) (name : String) : Option String :=
  x.entries.names.find? (· = name)

def resolve (x : RuleIndex γ) (name : String) : Except UnknownRule γ :=
  match x.rule? name with
  | some rule => .ok rule
  | none => .error ⟨name⟩

def size (x : RuleIndex γ) : Nat := x.entries.size

def isEmpty (x : RuleIndex γ) : Bool := x.entries.isEmpty

end RuleIndex

end RankedGrammar
