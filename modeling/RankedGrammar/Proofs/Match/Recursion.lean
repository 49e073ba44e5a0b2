import RankedGrammar.Proofs.Match.Collapsed
import RankedGrammar.Proofs.Match.Furthest
import RankedGrammar.Proofs.Tree.Recursion

/-!
Questions about the trees of runs. As every node of a run keeps what it expects in source order,
what is expected below a node does not depend on how the sets of its nodes are nested when they are
merged; so all that is asked of a node is answered as by recursion, in the tree that the rules left
and in the collapsed one.
-/
namespace RankedGrammar.Context

variable {ctx : Context} {rule : String} {p : RawParse}

theorem ordered_node (h : ctx.rawParse rule = .ok p) (j : Nat) :
    (p.tree.node j).expected.Ordered := (sited_node h j).ordered

/-- A collapse leaves every node what it expects. -/
theorem ordered_node_collapse (h : ctx.rawParse rule = .ok p) (j : Nat) :
    (p.tree.collapse.1.node j).expected.Ordered := by
  rw [(wellFormed_of_rawParse h).apply_node_collapse Node.expected (fun _ _ _ _ _ _ => rfl)
    (role_root_of_rawParse h)]
  exact ordered_node h j

/-- The answers to all questions about a node of the tree of a run, collapsed or not, are made of
what the node holds and of the answers for its children in order, or of what its parent holds and
the answer for the parent; and the loops behind them end. -/
theorem byRecursion_of_rawParse (h : ctx.rawParse rule = .ok p) :
    (∀ id ∈ p.tree.reachable, p.tree.ByRecursion id) ∧
      ∀ id ∈ p.tree.collapse.1.reachable, p.tree.collapse.1.ByRecursion id := by
  have hwf := wellFormed_of_rawParse h
  have hwf' := hwf.wellFormed_collapse (role_root_of_rawParse h)
  constructor
  · intro id hid
    exact hwf.byRecursion (ordered_node h) (hwf.mem_reachable.1 hid)
  · intro id hid
    exact hwf'.byRecursion (ordered_node_collapse h) (hwf'.mem_reachable.1 hid)

/-- At the start of the text three nodes expect names, some of them the same, and one of the three
is a wrapper. The node for `X` is not in the tree. -/
def overlapping : Context where
  source := .ofString "a"
  rules := .merge .empty .empty (.ofList [
    ("ROOT", .seq [.expect "w", .alt [.ref "X", .ref "A"], .named "B" "b"]),
    ("A", .all [.expect "x", .expect "w"]), ("B", .all [.expect "y", .expect "x", .ref "C"]),
    ("C", .byte (.single 97)), ("X", .byte (.single 98))])

theorem byRecursion_of_rawParse_overlapping : ∃ p, overlapping.rawParse "ROOT" = .ok p ∧
    p.tree.reachable = [0, 2, 3, 4] ∧ p.tree.collapse.1.reachable = [0, 2, 4] ∧
    (p.tree.expected 0).entries = [⟨⟨1, 0⟩, ["w", "X", "x", "y"]⟩] ∧
    (p.tree.collapse.1.expected 0).entries = [⟨⟨1, 0⟩, ["w", "X", "x"]⟩] ∧
    p.tree.findBelow? 0 "C" = some 4 ∧ p.tree.findAbove? 4 "ROOT" = some 0 ∧
    (∀ id ∈ p.tree.reachable, p.tree.ByRecursion id) ∧
    ∀ id ∈ p.tree.collapse.1.reachable, p.tree.collapse.1.ByRecursion id := by
  have hrun : (overlapping.rawParse "ROOT").toOption.map (fun p => decide
      (p.tree.reachable = [0, 2, 3, 4] ∧ p.tree.collapse.1.reachable = [0, 2, 4] ∧
        (p.tree.expected 0).entries = [⟨⟨1, 0⟩, ["w", "X", "x", "y"]⟩] ∧
        (p.tree.collapse.1.expected 0).entries = [⟨⟨1, 0⟩, ["w", "X", "x"]⟩] ∧
        p.tree.findBelow? 0 "C" = some 4 ∧ p.tree.findAbove? 4 "ROOT" = some 0)) = some true := by
    decide +kernel
  cases hp : overlapping.rawParse "ROOT" with
  | error e =>
    rw [hp] at hrun
    cases hrun
  | ok p =>
    rw [hp] at hrun
    obtain ⟨hraw, hcollapsed, hexpected, hkept, hbelow, habove⟩ :=
      of_decide_eq_true (Option.some.inj hrun)
    obtain ⟨hraws, hcollapseds⟩ := byRecursion_of_rawParse hp
    exact ⟨p, rfl, hraw, hcollapsed, hexpected, hkept, hbelow, habove, hraws, hcollapseds⟩

end RankedGrammar.Context
