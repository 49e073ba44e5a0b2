import RankedGrammar.Text.Bytes

/-!
Source texts with access by byte offset, and the line and column of an offset. An offset may lie
inside a character: bytes are still seen there, but no text begins or ends there.
-/
namespace RankedGrammar

/-- A place in a source text: lines count from one, columns are bytes from the start of the line. -/
structure Position where
  line : Nat
  column : Nat
deriving DecidableEq

namespace Position

/-- Source order: by line, then by column. -/
instance : LT Position :=
  ⟨fun p q => p.line < q.line ∨ p.line = q.line ∧ p.column < q.column⟩

instance (p q : Position) : Decidable (p < q) :=
  inferInstanceAs (Decidable (p.line < q.line ∨ p.line = q.line ∧ p.column < q.column))

end Position

/-- The offsets just after the line feeds among bytes that begin at `offset`. -/
def lineStartsAfter (offset : Nat) : List UInt8 → List Nat
  | [] => []
  | b :: bs =>
    if b = 10 then (offset + 1) :: lineStartsAfter (offset + 1) bs
    else lineStartsAfter (offset + 1) bs

/-- A text together with its bytes, the text after each offset and the offsets where lines begin. -/
structure Source where
  text : String
  chars : List Char := text.toList
  bytes : Array UInt8 := (Text.utf8Bytes chars).toArray
  tails : Array (Option (List Char)) := (Text.tails chars).toArray
  lineStarts : List Nat := 0 :: lineStartsAfter 0 bytes.toList
  chars_eq : chars = text.toList := by rfl
  bytes_eq : bytes = (Text.utf8Bytes chars).toArray := by rfl
  tails_eq : tails = (Text.tails chars).toArray := by rfl
  lineStarts_eq : lineStarts = 0 :: lineStartsAfter 0 bytes.toList := by rfl

namespace Source

def ofString (text : String) : Source := { text }

/-- The length in bytes, which is also the offset of the end. -/
def size (src : Source) : Nat := src.bytes.size

def isEmpty (src : Source) : Bool := src.size == 0

def byteAt? (src : Source) (offset : Nat) : Option UInt8 := src.bytes[offset]?

/-- The text from `offset` on, unless `offset` lies inside a character or past the end. -/
def tail? (src : Source) (offset : Nat) : Option (List Char) := src.tails[offset]?.join

/-- The text from `offset` on, empty where no text begins. -/
def remaining (src : Source) (offset : Nat) : List Char := (src.tail? offset).getD []

/-- The text between two offsets, unless one of them lies inside a character or past the end. -/
def slice? (src : Source) (start stop : Nat) : Option String := do
  let cs ← src.tail? start
  if start ≤ stop then (Text.takeBytes? (stop - start) cs).map String.ofList else none

/-- The text between two offsets, empty where `slice?` finds none. -/
def slice (src : Source) (start stop : Nat) : String := (src.slice? start stop).getD ""

/-- The offset `amount` bytes on from another one. Offsets are words of 64 bits: where the sum does
not fit, it wraps around. -/
def advance (offset amount : Nat) : Nat := (offset + amount) % UInt64.size

/-- The line and column of an offset, which may lie past the end. -/
def position (src : Source) (offset : Nat) : Position :=
  let begun := src.lineStarts.takeWhile (· ≤ offset)
  ⟨begun.length, offset - begun.getLastD 0⟩

theorem size_eq (src : Source) : src.size = Text.byteLength src.chars := by
  simp [size, src.bytes_eq, Text.length_utf8Bytes]

theorem tail?_eq (src : Source) (offset : Nat) :
    src.tail? offset = Text.dropBytes? offset src.chars := by
  simp [tail?, src.tails_eq, Text.tails_getElem?]

theorem advance_of_lt {offset amount : Nat} (h : offset + amount < UInt64.size) :
    advance offset amount = offset + amount :=
  Nat.mod_eq_of_lt h

/-- A sum that wraps around lies before the offset. -/
theorem le_advance_iff {offset amount : Nat} (hoffset : offset < UInt64.size)
    (hamount : amount < UInt64.size) :
    offset ≤ advance offset amount ↔ offset + amount < UInt64.size := by
  unfold advance
  unfold UInt64.size at *
  omega

@[simp] theorem text_ofString (text : String) : (ofString text).text = text := rfl

end Source

end RankedGrammar
