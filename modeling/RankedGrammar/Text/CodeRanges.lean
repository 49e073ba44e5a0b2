/-! Sets of code points, written as closed ranges in increasing order. -/
namespace RankedGrammar.Text

abbrev CodeRanges := List (Nat × Nat)

def CodeRanges.contains (ranges : CodeRanges) (c : Char) : Bool :=
  ranges.any fun r => r.1 ≤ c.toNat && c.toNat ≤ r.2

end RankedGrammar.Text
