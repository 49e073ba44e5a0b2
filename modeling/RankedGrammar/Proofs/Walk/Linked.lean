import RankedGrammar.Proofs.Match.Ascending
import RankedGrammar.Proofs.Walk.Routine

/-!
What all walks leave as it is. A walk marks nodes and may collapse its tree, and nothing else; so the
links of the tree of a run stay sound and its listing ascends, whatever a visitor asks for.
-/
namespace RankedGrammar

variable {σ : Type} {P : Tree → Prop}

/-- Neither the marks of a walk nor a collapse spoil the property. -/
structure Walk.Closed (P : Tree → Prop) : Prop where
  handOut : ∀ (w : Walk) (id : NodeId) (told : Bool), P w.tree → P (w.handOut id told).tree
  collapse : ∀ t : Tree, P t → P t.collapse.1

/-- The eater, with all that its visitor asks for, keeps the property. -/
def Eater.Keeps (P : Tree → Prop) (eat : Eater σ) : Prop :=
  ∀ w data, P w.tree → P (eat w data).2.1.tree

namespace Eater.Keeps

variable {eat : Eater σ}

theorem preserves (h : eat.Keeps P) : eat.Preserves fun w _ => P w.tree := h

theorem advance (hP : Walk.Closed P) (w : Walk) (told : Bool) (hw : P w.tree) :
    P (w.advance told).2.tree := by
  unfold Walk.advance
  split
  · exact hw
  · exact hP.handOut w _ told hw

theorem run (hP : Walk.Closed P) (h : eat.Keeps P) (fuel : Nat) (r : Routine σ) (w : Walk)
    (hw : P w.tree) : P (r.run eat fuel w).1.tree := by
  induction r generalizing w with
  | done data => exact hw
  | look next ih => exact ih w w hw
  | skip next ih => exact ih _ _ (advance hP w false hw)
  | eat data next ih => exact ih _ _ _ (h w data hw)
  | execute data next ih => exact ih _ _ _ (h.preserves.execute fuel data hw)
  | consume name data next ih => exact ih _ _ _ (h.preserves.consume name fuel data hw)
  | fork data next ih => exact ih _ _ _ hw
  | restart next ih => exact ih _ hw
  | collapse next ih => exact ih _ _ (hP.collapse w.tree hw)

theorem eatWithin (hP : Walk.Closed P) (v : Visitor σ) (fuel levels : Nat) :
    Keeps P (Walk.eatWithin v fuel levels) := by
  induction levels with
  | zero => exact fun w data hw => hw
  | succ levels ih =>
    intro w data hw
    have hadvance := advance hP w true hw
    rw [Walk.eatWithin]
    cases hnext : w.advance true with
    | mk id w' =>
      rw [hnext] at hadvance
      cases id with
      | none => exact hadvance
      | some id => exact run hP ih fuel (v id data w') w' hadvance

end Eater.Keeps

namespace Tree

/-- The links are sound, the root is an ordinary node, and the listing ascends. -/
structure Sorted (t : Tree) : Prop where
  wellFormed : t.WellFormed
  root_role : (t.node root).role.isTransient = false
  ascending : (t.branch root).preorder.Pairwise (· < ·)

namespace Sorted

variable {t : Tree}

theorem linked (h : t.Sorted) : t.Linked := h.wellFormed.linked h.ascending

/-- A mark on a node, which need not be there, leaves the links and the roles alone. -/
theorem modify (h : t.Sorted) (id : Nat) {f : Node → Node}
    (hf : ∀ n, (f n).parent = n.parent ∧ (f n).children = n.children ∧ (f n).role = n.role) :
    (t.modify id f).Sorted := by
  obtain ⟨hparent, hchildren, hrole⟩ := hf (t.node id)
  have hwf := h.wellFormed.modify hparent hchildren
  refine ⟨hwf, ?_, ?_⟩
  · rw [apply_node_modify Node.role hrole]
    exact h.root_role
  · rw [h.wellFormed.branch_congr hwf fun d _ => apply_node_modify Node.children hchildren d]
    exact h.ascending

theorem closed : Walk.Closed Sorted where
  handOut := by
    intro w id told hw
    have hmarked : (w.tree.modify id fun n => { n with consumed := true }).Sorted :=
      hw.modify id fun _ => ⟨rfl, rfl, rfl⟩
    unfold Walk.handOut
    dsimp only
    split
    · exact hmarked
    · exact hmarked.modify _ fun _ => ⟨rfl, rfl, rfl⟩
  collapse := by
    intro t ht
    obtain ⟨-, hcollapsing, -⟩ := ht.wellFormed.collapse_spec ht.root_role
    refine ⟨hcollapsing.wellFormed, hcollapsing.root_role, ?_⟩
    exact ht.ascending.sublist (ht.wellFormed.sublist_collapse ht.root_role .refl)

end Sorted

end Tree

namespace Context

variable {ctx : Context} {rule : String}

theorem sorted_of_rawParse {p : RawParse} (h : ctx.rawParse rule = .ok p) : p.tree.Sorted where
  wellFormed := wellFormed_of_rawParse h
  root_role := role_root_of_rawParse h
  ascending := (ascending_of_rawParse h).pairwise_preorder (wellFormed_of_rawParse h) Tree.root

/-- So is the tree of a parse, collapsed or not. -/
theorem sorted_of_parse {collapse : Bool} {p : Parse} (h : ctx.parse rule collapse = .ok p) :
    p.tree.Sorted := by
  obtain ⟨q, hraw, rfl⟩ := parse_eq_ok h
  have hsorted := sorted_of_rawParse hraw
  cases collapse with
  | false => exact hsorted
  | true => exact Tree.Sorted.closed.collapse _ hsorted

/-- The tree of a run is linked as it should be: as the rules left it, when it is collapsed, and
after any walk over either, whatever its visitor asks for and however far it comes. -/
theorem linked_of_rawParse {p : RawParse} (h : ctx.rawParse rule = .ok p) :
    p.tree.Linked ∧ p.tree.collapse.1.Linked ∧
      ∀ t ∈ [p.tree, p.tree.collapse.1], ∀ (language : String) (v : Visitor σ) (r : Routine σ)
        (fuel levels : Nat),
        (r.run (Walk.eatWithin v fuel levels) fuel (.start t language)).1.tree.Linked := by
  have hraw := sorted_of_rawParse h
  have hcollapsed := Tree.Sorted.closed.collapse _ hraw
  refine ⟨hraw.linked, hcollapsed.linked, ?_⟩
  intro t ht language v r fuel levels
  have hsorted : t.Sorted := by
    simp only [List.mem_cons, List.not_mem_nil, or_false] at ht
    cases ht with
    | inl heq => exact heq ▸ hraw
    | inr heq => exact heq ▸ hcollapsed
  have heat : Eater.Keeps Tree.Sorted (Walk.eatWithin v fuel levels) :=
    .eatWithin Tree.Sorted.closed v fuel levels
  exact (heat.run Tree.Sorted.closed fuel r (.start t language) hsorted).linked

/-- A walk that collapses the tree after its first node and then goes through all of it. -/
theorem linked_of_rawParse_assignment : ∃ p,
    rawParse { source := .ofString "$a=1+2;", rules := Language.statements.index } "SCRIPT" = .ok p ∧
      p.tree.reachable.length < p.tree.size ∧ 0 < p.tree.collapse.2.spliced ∧
      p.tree.Linked ∧ p.tree.collapse.1.Linked ∧
      ((Walk.start p.tree "demo").perform (fun _ n _ => .done (n + 1))
        (.eat 0 fun _ n => .collapse fun _ => .execute n fun _ n => .done n)).1.tree.Linked := by
  have hrun : (rawParse { source := .ofString "$a=1+2;", rules := Language.statements.index }
      "SCRIPT").toOption.map (fun p => decide (p.tree.reachable.length < p.tree.size ∧
        0 < p.tree.collapse.2.spliced)) = some true := by decide +kernel
  cases hp : rawParse { source := .ofString "$a=1+2;", rules := Language.statements.index }
      "SCRIPT" with
  | error e =>
    rw [hp] at hrun
    cases hrun
  | ok p =>
    rw [hp] at hrun
    obtain ⟨hdropped, hspliced⟩ := of_decide_eq_true (Option.some.inj hrun)
    obtain ⟨hraw, hcollapsed, hwalked⟩ := linked_of_rawParse (σ := Nat) hp
    refine ⟨p, rfl, hdropped, hspliced, hraw, hcollapsed, ?_⟩
    unfold Walk.perform
    exact hwalked p.tree List.mem_cons_self "demo" _ _ _ _

end Context

end RankedGrammar
