import Mathlib.Order.Bounds.Basic
import RankedGrammar.Proofs.Match.Edit
import RankedGrammar.Proofs.Text.Position

/-!
Where a run got to. All that a run expects stands at the places of offsets, in source order; and as
places follow each other as their offsets do, the furthest entry is the one at the greatest offset.
-/
namespace RankedGrammar

namespace Expectations

/-- The entries are in source order, each at the place of an offset. -/
structure Sited (src : Source) (e : Expectations) : Prop where
  ordered : e.Ordered
  placed : ∀ x ∈ e.entries, ∃ n, src.position n = x.position

variable {src : Source} {e e' : Expectations} {x : Expectation}

theorem Sited.empty : Sited src .empty := ⟨ordered_empty, by simp [Expectations.empty]⟩

theorem Sited.single (offset : Nat) (name : String) :
    Sited src (.single (src.position offset) name) :=
  ⟨ordered_single _ name, by simp [Expectations.single]⟩

theorem Sited.merge (h : e.Sited src) (h' : e'.Sited src) : (e.merge e').Sited src where
  ordered := h.ordered.merge h'.ordered
  placed := Expectation.forall_mem_merge (fun ha _ => ha) h.placed h'.placed

theorem Ordered.le_furthest (h : e.Ordered) (hx : e.furthest? = some x) {y : Expectation}
    (hy : y ∈ e.entries) : y = x ∨ y.position < x.position := by
  obtain ⟨init, hinit⟩ := List.getLast?_eq_some_iff.1 hx
  have hsorted := h.increasing
  rw [hinit, List.pairwise_append] at hsorted
  rw [hinit, List.mem_append, List.mem_singleton] at hy
  rcases hy with hmem | rfl
  · exact .inr (hsorted.2.2 y hmem x (List.mem_singleton_self x))
  · exact .inl rfl

/-- The furthest entry stands at the greatest offset at whose place something is expected. -/
theorem Sited.furthest_isGreatest (h : e.Sited src) (hx : e.furthest? = some x) :
    ∃ m, src.position m = x.position ∧
      IsGreatest {n | ∃ name, e.Has (src.position n) name} m := by
  have hmem : x ∈ e.entries := List.mem_of_getLast? hx
  obtain ⟨m, hm⟩ := h.placed x hmem
  obtain ⟨name, hname⟩ := List.exists_mem_of_ne_nil _ (h.ordered.full x hmem)
  refine ⟨m, hm, ⟨name, x, hmem, hm.symm, hname⟩, ?_⟩
  rintro n ⟨-, y, hy, hplace, -⟩
  by_contra hlt
  have hpast : x.position < y.position := by
    rw [← hm, hplace]
    exact src.position_lt_iff.2 (Nat.not_le.1 hlt)
  rcases h.ordered.le_furthest hx hy with rfl | hbefore
  · exact irrefl _ hpast
  · exact asymm hpast hbefore

end Expectations

theorem Context.sited_node {ctx : Context} {rule : String} {p : RawParse}
    (h : ctx.rawParse rule = .ok p) (j : Nat) : (p.tree.node j).expected.Sited ctx.source := by
  obtain ⟨ok, s, hrun, -, htree⟩ := rawParse_eq_ok h
  have hedited := edits_attempt ctx ctx.limit Tree.root _ (.start ctx rule)
    (.refl ctx.source Nat.one_pos)
  rw [hrun] at hedited
  rw [htree]
  refine hedited.edits.forall_expected .empty .single .merge (fun k => ?_) j
  exact (apply_node_start Node.expected ctx rule rfl k).symm ▸ .empty

theorem Context.sited_expected {ctx : Context} {rule : String} {collapse : Bool} {p : Parse}
    (h : ctx.parse rule collapse = .ok p) : p.expected.Sited ctx.source := by
  obtain ⟨q, hraw, rfl⟩ := parse_eq_ok h
  rw [RawParse.expected_finish]
  exact (Tree.gathered_expected ctx.source q.tree Tree.root).induct .empty .single .merge
    (sited_node hraw)

/-- Places count the line feeds before an offset and the bytes since the last of them, past the end
as well; the table of line starts is always looked up within its bounds, at the last line begun. So
places are in the order of their offsets, and the furthest of all that a parse expects stands at the
greatest offset at which it expects anything. -/
theorem Source.positions_follow_offsets (src : Source) :
    (∀ n, (src.position n).line = 1 + (src.feedsBelow n).length ∧
      (src.position n).column = (src.feedsBelow n).getLast?.elim n (fun m => n - (m + 1)) ∧
      1 ≤ (src.position n).line ∧
      (∀ i start, src.lineStarts[i]? = some start → (start ≤ n ↔ i < (src.position n).line)) ∧
      ∃ start, src.lineStarts[(src.position n).line - 1]? = some start ∧ start ≤ n ∧
        (src.position n).column = n - start) ∧
    (∀ m n, m < n ↔ src.position m < src.position n) ∧
    ∀ (rules : RuleIndex Expr) (limit : Nat) (rule : String) (collapse : Bool) (p : Parse)
      (x : Expectation), Context.parse ⟨src, rules, limit⟩ rule collapse = .ok p →
      p.expected.furthest? = some x → ∃ m, src.position m = x.position ∧
        IsGreatest {n | ∃ name, p.expected.Has (src.position n) name} m := by
  refine ⟨fun n => ?_, fun m n => src.position_lt_iff.symm, ?_⟩
  · have heq := src.position_eq n
    exact ⟨congrArg Position.line heq, congrArg Position.column heq, src.position_lookup n⟩
  · intro rules limit rule collapse p x hp hx
    exact (Context.sited_expected hp).furthest_isGreatest hx

namespace Context

def twoLines : Context where
  source := .ofString "a\nc"
  rules := .merge .empty .empty (.ofList [
    ("ROOT", .any [.ref "B", .seq [.text "a\n", .ref "B"]]), ("B", .byte (.single 98))])

/-- It is expected at the offsets 0 and 2, and the place of the latter is the furthest. -/
theorem positions_follow_offsets_lines : ∃ p x, twoLines.parse "ROOT" = .ok p ∧
    p.expected.entries = [⟨⟨1, 0⟩, ["B"]⟩, ⟨⟨2, 0⟩, ["B"]⟩] ∧
    p.expected.furthest? = some x ∧ x.position = ⟨2, 0⟩ ∧
    ∃ m, twoLines.source.position m = x.position ∧
      IsGreatest {n | ∃ name, p.expected.Has (twoLines.source.position n) name} m := by
  have hrun : (twoLines.parse "ROOT").toOption.map (fun p => decide
      (p.expected.entries = [⟨⟨1, 0⟩, ["B"]⟩, ⟨⟨2, 0⟩, ["B"]⟩])) = some true := by decide +kernel
  obtain ⟨-, -, hfurthest⟩ := twoLines.source.positions_follow_offsets
  cases hp : twoLines.parse "ROOT" with
  | error e =>
    rw [hp] at hrun
    cases hrun
  | ok p =>
    rw [hp] at hrun
    have hentries := of_decide_eq_true (Option.some.inj hrun)
    have hx : p.expected.furthest? = some ⟨⟨2, 0⟩, ["B"]⟩ := by
      rw [Expectations.furthest?, hentries]
      rfl
    exact ⟨p, _, rfl, hentries, hx, rfl, hfurthest _ _ _ _ p _ hp hx⟩

end Context

end RankedGrammar
