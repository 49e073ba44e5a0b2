/-! Sets of bytes, written as closed ranges; a range whose ends are in the wrong order is empty. -/
namespace RankedGrammar

structure ByteClass where
  ranges : List (UInt8 × UInt8)
deriving DecidableEq

namespace ByteClass

def contains (k : ByteClass) (b : UInt8) : Bool := k.ranges.any fun r => r.1 ≤ b && b ≤ r.2

def range (low high : UInt8) : ByteClass := ⟨[(low, high)]⟩

def single (b : UInt8) : ByteClass := range b b

/-- The listed bytes and no others. -/
def ofList (bs : List UInt8) : ByteClass := ⟨bs.map fun b => (b, b)⟩

end ByteClass

end RankedGrammar
