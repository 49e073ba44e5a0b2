import RankedGrammar.Main
import RankedGrammar.Rule.Describe
import RankedGrammar.Proofs.Grammar.Tree
import RankedGrammar.Proofs.Walk.Ahead
import RankedGrammar.Proofs.Match.Call
import RankedGrammar.Proofs.Match.Determined
import RankedGrammar.Proofs.Tree.Kept
import RankedGrammar.Proofs.Tree.Value
import RankedGrammar.Proofs.Match.Value
import RankedGrammar.Proofs.Match.Ascending
import RankedGrammar.Proofs.Match.Matched
import RankedGrammar.Proofs.Match.Limit
import RankedGrammar.Proofs.Grammar.Viable
import RankedGrammar.Proofs.Match.Cursor
import RankedGrammar.Proofs.Match.Termination
import RankedGrammar.Proofs.Match.Recorded
import RankedGrammar.Proofs.Match.Retained
import RankedGrammar.Proofs.Match.Counted
import RankedGrammar.Proofs.Match.Ranking
import RankedGrammar.Proofs.Diagnostic.LineTable
import RankedGrammar.Proofs.Match.Token
import RankedGrammar.Proofs.Rule.Layers
import RankedGrammar.Proofs.Command.Spelling
import RankedGrammar.Proofs.Match.Recursion
