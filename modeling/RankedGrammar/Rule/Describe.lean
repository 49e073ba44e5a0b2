import RankedGrammar.Rule.Rulebook
import RankedGrammar.Text.Layout
import RankedGrammar.Text.Quoted

/-! Descriptions of rulebooks and rule indices for people. -/
namespace RankedGrammar
open Text (Layout quoted)

variable {γ : Type}

def Layer.name : Layer → String
  | override => "Override"
  | primitive => "Primitive"
  | parser => "Parser"

def Rulebook.layout (b : Rulebook γ) : Layout :=
  .record "RuleSet" [.field "rules" (.list (b.names.map fun name => .word (quoted name)))]

/-- The layer of a resolution; a rule itself is not shown. -/
def Resolution.layout (r : Resolution γ) : Layout :=
  .record "RuleEntry" [
    .field "grammar" (.word (quoted "<function>")),
    .field "tier" (.word r.layer.name)]

/-- The names of an index with their layers, sorted by name. -/
def RuleIndex.layout (x : RuleIndex γ) : Layout :=
  let rows := x.entries.entries.map fun e => (e.1, e.2.layer)
  let sorted := rows.mergeSort fun a b => decide (a.1 ≤ b.1)
  .record "RuleTable" [.field "rules" (.list (sorted.map fun row =>
    .tuple "" [.word (quoted row.1), .word row.2.name]))]

def UnknownRule.message (e : UnknownRule) : String :=
  "grammar rule `" ++ e.name ++ "` is not registered"

end RankedGrammar
