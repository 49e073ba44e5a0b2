import RankedGrammar.Proofs.Match.Frame
import RankedGrammar.Proofs.Tree.Collapse
import RankedGrammar.Rule.Language

/-! The collapse of the trees of runs. -/
namespace RankedGrammar

namespace Tree.WellFormed

variable {t : Tree}

/-- A collapse moves no walk on. -/
theorem unwalked_collapse (h : t.WellFormed) (hrole : (t.node root).role.isTransient = false)
    (hwalk : t.Unwalked) : t.collapse.1.Unwalked := by
  intro j
  obtain ⟨hflag, hcount⟩ := hwalk j
  constructor
  · rw [apply_node_collapse Node.consumed (fun _ _ _ _ _ _ => rfl) h hrole, hflag]
  · rw [apply_node_collapse Node.consumedChildren (fun _ _ _ _ _ _ => rfl) h hrole, hcount]

end Tree.WellFormed

namespace Context

variable {ctx : Context} {rule : String}

theorem role_root_of_rawParse {p : RawParse} (h : ctx.rawParse rule = .ok p) :
    (p.tree.node Tree.root).role.isTransient = false := by
  rw [(origin_root_of_rawParse h).role]
  rfl

/-- The tree of a parse, collapsed or not, is fit for a walk. -/
theorem walkable_of_parse {collapse : Bool} {p : Parse} (h : ctx.parse rule collapse = .ok p) :
    p.tree.WellFormed ∧ p.tree.Unwalked := by
  obtain ⟨q, hraw, rfl⟩ := parse_eq_ok h
  have hwf := wellFormed_of_rawParse hraw
  have hrole := role_root_of_rawParse hraw
  have hwalk := unwalked_of_rawParse hraw
  cases collapse with
  | false => exact ⟨hwf, hwalk⟩
  | true => exact ⟨hwf.wellFormed_collapse hrole, hwf.unwalked_collapse hrole hwalk⟩

/-- The collapse of the tree of a run comes to an end, at the tree that the recursion gives and with
no transient node left. It removes the wrappers that it counts and turns every literal into a
terminal, and done again it changes nothing. -/
theorem collapse_rawParse {p : RawParse} (h : ctx.rawParse rule = .ok p) :
    Tree.Collapses [Tree.root] p.tree ⟨0, 0⟩ p.tree.collapse.1 p.tree.collapse.2 ∧
      p.tree.collapse.1.entries Tree.root = (p.tree.entries Tree.root).collapsed ∧
      p.tree.collapse.1.hasTransient = false ∧
      p.tree.collapse.2.spliced = p.tree.reachable.length - p.tree.collapse.1.reachable.length ∧
      p.tree.collapse.1.reachable.length ≤ p.tree.reachable.length ∧
      p.tree.collapse.2.terminals = p.tree.literalCount ∧
      p.tree.collapse.1.collapse = (p.tree.collapse.1, ⟨0, 0⟩) := by
  have hwf := wellFormed_of_rawParse h
  have hrole := role_root_of_rawParse h
  obtain ⟨hends, hcollapsing, hclean⟩ := hwf.collapse_spec hrole
  have hspliced := hcollapsing.spliced
  have hterminals := hcollapsing.terminals
  rw [hwf.literalCount_collapse hrole] at hterminals
  refine ⟨hends, hwf.entries_collapse hrole, ?_, by omega, by omega, by omega,
    hwf.collapse_collapse hrole⟩
  exact hcollapsing.wellFormed.hasTransient_eq_false.2 hclean

theorem collapse_rawParse_assignment : ∃ p,
    rawParse { source := .ofString "$a=1+2;", rules := Language.statements.index } "SCRIPT" = .ok p ∧
      p.tree.collapse.2 = ⟨1, 2⟩ ∧
      p.tree.collapse.1.entries Tree.root = (p.tree.entries Tree.root).collapsed ∧
      p.tree.collapse.1.hasTransient = false := by
  have hrun : (rawParse { source := .ofString "$a=1+2;", rules := Language.statements.index }
      "SCRIPT").toOption.map (fun p => p.tree.collapse.2) = some ⟨1, 2⟩ := by decide +kernel
  cases hp : rawParse { source := .ofString "$a=1+2;", rules := Language.statements.index }
      "SCRIPT" with
  | error e =>
    rw [hp] at hrun
    cases hrun
  | ok p =>
    rw [hp] at hrun
    obtain ⟨-, hentries, hclean, -⟩ := collapse_rawParse hp
    exact ⟨p, rfl, Option.some.inj hrun, hentries, hclean⟩

end Context

end RankedGrammar
