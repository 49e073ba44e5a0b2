import RankedGrammar.Proofs.Match.Collapsed
import RankedGrammar.Proofs.Tree.Value

/-!
The values of parses with the tree collapsed and without. They are the same where no wrapper takes
text behind a node that stays, and not in general.
-/
namespace RankedGrammar.Context

variable {ctx : Context} {rule : String}

theorem value_parse {p : RawParse} (h : ctx.rawParse rule = .ok p) :
    (ctx.parse rule true).map Parse.value = .ok (p.tree.collapse.1.value Tree.root) ∧
      (ctx.parse rule false).map Parse.value = .ok (p.tree.value Tree.root) := by
  rw [parse, parse, h]
  exact ⟨rfl, rfl⟩

/-- A collapse keeps the value of every node that stays if and only if, below each of these nodes,
the texts of the wrappers may go ahead of the others without a change in the whole. They may where
no wrapper took text behind a node that stays and took text; then the value of the parse is the same
with the tree collapsed and without. -/
theorem value_collapse_iff {p : RawParse} (h : ctx.rawParse rule = .ok p) :
    ((∀ d ∈ p.tree.collapse.1.reachable, p.tree.collapse.1.value d = p.tree.value d) ↔
        ∀ d ∈ p.tree.collapse.1.reachable, p.tree.InOrder d) ∧
      ((∀ d ∈ p.tree.collapse.1.reachable, (p.tree.pieces d).Pairwise (Piece.Precedes p.tree)) →
        (∀ d ∈ p.tree.collapse.1.reachable, p.tree.collapse.1.value d = p.tree.value d) ∧
          (ctx.parse rule true).map Parse.value = (ctx.parse rule false).map Parse.value) := by
  have hwf := wellFormed_of_rawParse h
  have hrole := role_root_of_rawParse h
  have hiff := hwf.forall_value_collapse_iff hrole
  refine ⟨hiff, fun horder => ?_⟩
  have hsame := hiff.2 fun d hd => Piece.join_eq_sorted (horder d hd)
  have hroot := hsame Tree.root ((hwf.wellFormed_collapse hrole).mem_reachable.2 .refl)
  obtain ⟨hcollapsed, hraw⟩ := value_parse h
  exact ⟨hsame, by rw [hcollapsed, hraw, hroot]⟩

/-- The tails of expressions are wrappers that take no text by themselves. -/
theorem value_collapse_assignment : ∃ p,
    rawParse { source := .ofString "$a=1+2;", rules := Language.statements.index } "SCRIPT" = .ok p ∧
      p.tree.collapse.2 = ⟨1, 2⟩ ∧
      (∀ d ∈ p.tree.collapse.1.reachable, (p.tree.pieces d).Pairwise (Piece.Precedes p.tree)) ∧
      ∀ d ∈ p.tree.collapse.1.reachable, p.tree.collapse.1.value d = p.tree.value d := by
  have hrun : (rawParse { source := .ofString "$a=1+2;", rules := Language.statements.index }
      "SCRIPT").toOption.map (fun p => decide (p.tree.collapse.2 = ⟨1, 2⟩ ∧
        ∀ d ∈ p.tree.collapse.1.reachable,
          (p.tree.pieces d).Pairwise (Piece.Precedes p.tree))) = some true := by decide +kernel
  cases hp : rawParse { source := .ofString "$a=1+2;", rules := Language.statements.index }
      "SCRIPT" with
  | error e =>
    rw [hp] at hrun
    cases hrun
  | ok p =>
    rw [hp] at hrun
    obtain ⟨hcounts, horder⟩ := of_decide_eq_true (Option.some.inj hrun)
    exact ⟨p, rfl, hcounts, horder, ((value_collapse_iff hp).2 horder).1⟩

/-- A letter and then, in a wrapper, a digit. -/
def digitLast : Context where
  source := .ofString "x1"
  rules := .merge .empty Tokens.rules
    (.ofList [("ROOT", .seq [.ref "LETTER", .named "DIGIT" "a digit"])])

/-- The run is valid and every node holds the text of its span, but the collapse puts the digit
before the letter. -/
theorem value_collapse_digitLast : ∃ p, digitLast.rawParse "ROOT" = .ok p ∧ p.valid = true ∧
    (∀ n ∈ p.tree.reachable, digitLast.source.slice? (p.tree.node n).start (p.tree.stop n) =
      some (p.tree.value n)) ∧
    Tree.root ∈ p.tree.collapse.1.reachable ∧
    (p.finish digitLast.source false).value = "x1" ∧
    (p.finish digitLast.source true).value = "1x" := by
  have hrun : (digitLast.rawParse "ROOT").toOption.map (fun p => decide (p.valid = true ∧
      (∀ n ∈ p.tree.reachable, digitLast.source.slice? (p.tree.node n).start (p.tree.stop n) =
        some (p.tree.value n)) ∧
      Tree.root ∈ p.tree.collapse.1.reachable ∧
      (p.finish digitLast.source false).value = "x1" ∧
      (p.finish digitLast.source true).value = "1x")) = some true := by decide +kernel
  cases hp : digitLast.rawParse "ROOT" with
  | error e =>
    rw [hp] at hrun
    cases hrun
  | ok p =>
    rw [hp] at hrun
    exact ⟨p, rfl, of_decide_eq_true (Option.some.inj hrun)⟩

end RankedGrammar.Context
