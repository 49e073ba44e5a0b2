import RankedGrammar.Match.State

/-!
The parts of a rule that look at the source and take text. What is taken is recorded on the node,
also when it is empty; a range whose ends are not both between characters is recorded as the empty
text.
-/
namespace RankedGrammar

/-- A part of a rule that concerns its node alone: it says whether it succeeds. -/
abbrev Terminal := Node → Bool × Node

namespace Terminal

/-- Takes the next `amount` bytes, which are to be there. -/
def take (src : Source) (amount : Nat) (n : Node) : Node :=
  { n.record (src.slice n.point (n.point + amount)) with point := n.point + amount }

def look (src : Source) (k : ByteClass) (offset : Nat) : Terminal := fun n =>
  ((src.byteAt? (Source.advance n.point offset)).any k.contains, n)

def byte (src : Source) (k : ByteClass) : Terminal := fun n =>
  if (src.byteAt? n.point).any k.contains then (true, take src 1 n) else (false, n)

/-- Takes what a reader finds at the start of the remaining text. -/
def takeRead (src : Source) (reader : List Char → Option (List Char)) : Terminal := fun n =>
  match reader (src.remaining n.point) with
  | some cs => (true, take src (Text.byteLength cs) n)
  | none => (false, n)

def text (src : Source) (t : String) : Terminal :=
  takeRead src fun cs => if t.toList.isPrefixOf cs then some t.toList else none

/-- Takes the text attached to the node, which is not to be empty. -/
def attached (src : Source) : Terminal := fun n =>
  match n.role.attached? with
  | some t => if t.isEmpty then (false, n) else text src t n
  | none => (false, n)

def pattern (src : Source) (p : Text.Pattern) : Terminal := takeRead src p.match?

def countBytes (k : ByteClass) : List Char → Nat
  | [] => 0
  | c :: cs =>
    let n := ((String.utf8EncodeChar c).takeWhile k.contains).length
    if n = c.utf8Size then n + countBytes k cs else n

/-- Takes all bytes of a class; succeeds if there are at least `least`. -/
def bytes (src : Source) (k : ByteClass) (least : Nat) : Terminal := fun n =>
  let amount := countBytes k (src.remaining n.point)
  (least ≤ amount, take src amount n)

/-- Moves on without recording, at most to the end of the source. A sum that wraps around moves the
cursor back instead. -/
def skip (src : Source) (amount : Nat) : Terminal := fun n =>
  (true, { n with point := min (Source.advance n.point amount) src.size })

def record (t : String) : Terminal := fun n => (true, n.record t)

def expect (src : Source) (name : String) : Terminal := fun n => (true, n.expect src name)

def atEnd (src : Source) : Terminal := fun n => (src.size ≤ n.point, n)

end Terminal

namespace Step

def own (id : NodeId) (f : Terminal) : Step := fun s =>
  match f (s.node id) with
  | (ok, n) => (ok, s.modify id fun _ => n)

def snapshot (ctx : Context) (id : NodeId) (label : String) (s : RunState) : Snapshot :=
  let n := s.node id
  { label
    rule := n.name
    id
    point := n.point
    atEnd := ctx.source.size ≤ n.point
    remaining := String.ofList (ctx.source.remaining n.point)
    here := ctx.source.byteAt? n.point
    beyond := ctx.source.byteAt? (Source.advance n.point 2)
    attached := n.role.attached?
    isTransient := n.role.isTransient
    sourceSize := ctx.source.size }

end Step

end RankedGrammar
