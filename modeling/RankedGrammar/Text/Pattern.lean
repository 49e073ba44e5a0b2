import RankedGrammar.Text.Bytes
import RankedGrammar.Text.WordChar

/-!
Patterns over characters, read from the start of a text. Where a text can be read in several ways
the ways are ranked: an earlier alternative before a later one, and a repetition that goes on
before one that stops. The match of a pattern is its first way.
-/
namespace RankedGrammar.Text

/-- The characters in some of the ranges, or with `negated` those in none. -/
structure CharClass where
  ranges : List (Char × Char)
  negated : Bool := false
deriving DecidableEq

namespace CharClass

def contains (k : CharClass) (c : Char) : Bool :=
  (k.ranges.any fun r => r.1 ≤ c && c ≤ r.2) != k.negated

def ofChar (c : Char) : CharClass := { ranges := [(c, c)] }

/-- Every character but the line feed. -/
def notLineFeed : CharClass := { ranges := [('\n', '\n')], negated := true }

end CharClass

inductive Pattern where
  | nothing
  | one (k : CharClass)
  | seq (p q : Pattern)
  /-- `p`, or else `q`. -/
  | alt (p q : Pattern)
  /-- Any number of `p`, as many as possible; a turn that reads nothing does not count. -/
  | star (p : Pattern)
  /-- The end of the text, without reading anything. -/
  | atEnd
  /-- A place between a word character and something else, without reading anything. -/
  | wordEdge
deriving DecidableEq

/-- A text split into the part already read, last character first, and the rest. -/
structure Reading where
  taken : List Char
  rest : List Char
deriving DecidableEq

namespace Reading

/-- A word character stands on exactly one side. -/
def atWordEdge (r : Reading) : Bool := r.taken.head?.any isWordChar != r.rest.head?.any isWordChar

def text (r : Reading) : List Char := r.taken.reverse ++ r.rest

/-- All ways to repeat `step` at most `n` times from `r` on, followed by the readings `after`. -/
def repeatOnto (step : Reading → List Reading) : Nat → Reading → List Reading → List Reading
  | 0, r, after => r :: after
  | n + 1, r, after =>
    ((step r).filter (·.rest.length < r.rest.length)).foldr (repeatOnto step n) (r :: after)

/-- Repetition keeps the text if each turn does. -/
theorem text_of_mem_repeatOnto {step : Reading → List Reading} {n : Nat} {r r' : Reading}
    {after : List Reading} (hstep : ∀ {s s'}, s' ∈ step s → s'.text = s.text)
    (hafter : ∀ s ∈ after, s.text = r.text) (h : r' ∈ repeatOnto step n r after) :
    r'.text = r.text := by
  induction n generalizing r r' after with
  | zero => exact (List.mem_cons.1 h).elim (fun e => e ▸ rfl) (hafter r')
  | succ n ih =>
    have hfold : ∀ l : List Reading, (∀ s ∈ l, s.text = r.text) →
        ∀ s' ∈ l.foldr (repeatOnto step n) (r :: after), s'.text = r.text := by
      intro l hl
      induction l with
      | nil =>
        intro s' hs
        exact (List.mem_cons.1 hs).elim (fun e => e ▸ rfl) (hafter s')
      | cons s l ihl =>
        have hs := hl s List.mem_cons_self
        have hrest := ihl fun x hx => hl x (List.mem_cons_of_mem s hx)
        intro s' hs'
        exact (ih (fun x hx => (hrest x hx).trans hs.symm) hs').trans hs
    exact hfold _ (fun s hs => hstep (List.mem_filter.1 hs).1) r' h

end Reading

namespace Pattern

/-- Every way to read the pattern from `r` on, the preferred one first. -/
def ends : Pattern → Reading → List Reading
  | nothing, r => [r]
  | one k, r =>
    match r.rest with
    | [] => []
    | c :: cs => if k.contains c then [⟨c :: r.taken, cs⟩] else []
  | seq p q, r => (p.ends r).flatMap q.ends
  | alt p q, r => p.ends r ++ q.ends r
  | star p, r => Reading.repeatOnto p.ends r.rest.length r []
  | atEnd, r => if r.rest.isEmpty then [r] else []
  | wordEdge, r => if r.atWordEdge then [r] else []

/-- Reading moves characters from the rest to what was taken and loses none. -/
theorem text_of_mem_ends {p : Pattern} {r r' : Reading} (h : r' ∈ p.ends r) : r'.text = r.text := by
  induction p generalizing r r' with
  | nothing => simp_all [ends]
  | one k =>
    simp only [ends] at h
    split at h
    · simp at h
    · next c cs hr =>
      split at h
      · simp_all [Reading.text]
      · simp at h
  | seq p q hp hq =>
    simp only [ends, List.mem_flatMap] at h
    obtain ⟨s, hs, hr⟩ := h
    rw [hq hr, hp hs]
  | alt p q hp hq =>
    simp only [ends, List.mem_append] at h
    exact h.elim hp hq
  | star p hp =>
    exact Reading.text_of_mem_repeatOnto (fun hs => hp hs) (by simp) h
  | atEnd => simp_all [ends]
  | wordEdge => simp_all [ends]

/-- The text that the pattern reads at the start of `cs`. -/
def match? (p : Pattern) (cs : List Char) : Option (List Char) :=
  (p.ends ⟨[], cs⟩).head?.map (·.taken.reverse)

def char (c : Char) : Pattern := one (.ofChar c)

def opt (p : Pattern) : Pattern := alt p nothing

def plus (p : Pattern) : Pattern := seq p (star p)

def times : Nat → Pattern → Pattern
  | 0, _ => nothing
  | n + 1, p => seq p (times n p)

end Pattern

end RankedGrammar.Text
