import RankedGrammar.Rule.ByteClass
import RankedGrammar.Rule.Names
import RankedGrammar.Text.Pattern

/-!
The bodies of grammar rules. A body runs on one node of the tree: it moves the node's cursor,
records text on the node, and matches other rules as children of the node.
-/
namespace RankedGrammar

inductive Expr where
  /-- Match a rule as an ordinary child. -/
  | ref (rule : String)
  /-- Match a rule as a wrapper that goes when the tree is collapsed; `caption` describes it. -/
  | named (rule caption : String)
  /-- Match a text as a child of its own. -/
  | lit (text : String)
  /-- All in order; the cursor goes back if one fails. -/
  | seq (es : List Expr)
  /-- Every candidate is tried from the same place and the heaviest success is adopted. -/
  | alt (es : List Expr)
  /-- As often as the body succeeds and advances. -/
  | many (e : Expr)
  /-- The same, reporting the number of times, which is to be at least `least`. -/
  | tally (e : Expr) (least : Nat)
  /-- The same, unreported, where the number of times is to pass a test. -/
  | counted (e : Expr) (test : Nat → Bool)
  | byte (k : ByteClass)
  | text (t : String)
  /-- Take the text attached to the node, which is not to be empty. -/
  | attached
  | pattern (p : Text.Pattern)
  /-- Take all bytes of a class, which are to be at least `least`; they are taken in any case. -/
  | bytes (k : ByteClass) (least : Nat)
  /-- Is the byte at an offset from the cursor in a class? -/
  | look (k : ByteClass) (offset : Nat)
  /-- Move on without recording, at most to the end of the source. The cursor and the amount are
  added in a word of 64 bits. -/
  | skip (amount : Nat)
  /-- Record a text as if it had been taken. -/
  | record (t : String)
  /-- Report a name as expected at the cursor. -/
  | expect (name : String)
  | atEnd
  /-- Report the state of the node. -/
  | probe (label : String)
  /-- Succeed where `e` fails, undoing nothing. -/
  | not (e : Expr)
  /-- In order up to the first failure, undoing nothing. -/
  | all (es : List Expr)
  /-- In order up to the first success, undoing nothing. -/
  | any (es : List Expr)
  /-- Go on with one body after a success of the first and with the other after a failure, undoing
  nothing. -/
  | ifElse (e yes no : Expr)
  | const (b : Bool)

namespace Expr

instance : Inhabited Expr := ⟨const false⟩

def opt (e : Expr) : Expr := alt [e, ref blankName]

end Expr

end RankedGrammar
