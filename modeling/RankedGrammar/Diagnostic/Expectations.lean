import RankedGrammar.Text.Source

/-!
What would have allowed progress, by place in the source. The entries of a set are in source order
and the names at one place in the order in which they were first recorded.
-/
namespace RankedGrammar

/-- The names recorded at one place. -/
structure Expectation where
  position : Position
  names : List String
deriving DecidableEq

/-- Expectations in source order, at most one to a place. -/
structure Expectations where
  entries : List Expectation
deriving DecidableEq

namespace Expectation

/-- The names of `a` and then those of `b` that `a` lacks, at the place of `a`. -/
def union (a b : Expectation) : Expectation :=
  ⟨a.position, a.names ++ b.names.filter (· ∉ a.names)⟩

/-- Puts `a` in its place among entries, `rest` being what remains to be merged after it. -/
def mergeInto (a : Expectation) (rest : List Expectation → List Expectation) :
    List Expectation → List Expectation
  | [] => a :: rest []
  | b :: bs =>
    if b.position < a.position then b :: mergeInto a rest bs
    else if a.position < b.position then a :: rest (b :: bs)
    else a.union b :: rest bs

/-- Merges two lists of entries in source order. -/
def merge : List Expectation → List Expectation → List Expectation
  | [], bs => bs
  | a :: as, [] => a :: as
  | a :: as, b :: bs => a.mergeInto (merge as) (b :: bs)

/-- The same place and the same names, in any order. -/
def SameNames (a b : Expectation) : Prop :=
  a.position = b.position ∧ (∀ n ∈ a.names, n ∈ b.names) ∧ ∀ n ∈ b.names, n ∈ a.names

instance (a b : Expectation) : Decidable (a.SameNames b) :=
  inferInstanceAs (Decidable (_ ∧ _))

end Expectation

namespace Expectations

def empty : Expectations := ⟨[]⟩

instance : Inhabited Expectations := ⟨empty⟩

def single (position : Position) (name : String) : Expectations := ⟨[⟨position, [name]⟩]⟩

/-- Everything in `s`, followed at each place by what only `t` has there. -/
def merge (s t : Expectations) : Expectations := ⟨Expectation.merge s.entries t.entries⟩

def insert (s : Expectations) (position : Position) (name : String) : Expectations :=
  s.merge (single position name)

def isEmpty (s : Expectations) : Bool := s.entries.isEmpty

def namesAt (s : Expectations) (position : Position) : List String :=
  ((s.entries.find? (·.position = position)).map (·.names)).getD []

/-- The entry that lies last in the source. -/
def furthest? (s : Expectations) : Option Expectation := s.entries.getLast?

/-- The same names at the same places; the order of the names does not count. -/
def sameNames (s t : Expectations) : Bool :=
  s.entries.isEqv t.entries fun a b => decide (a.SameNames b)

end Expectations

end RankedGrammar
