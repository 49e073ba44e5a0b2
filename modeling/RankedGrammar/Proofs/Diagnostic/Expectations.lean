import Mathlib.Order.Basic
import RankedGrammar.Match.State
import RankedGrammar.Proofs.Tree.WellFormed

/-!
What a merged set holds. Names are neither lost nor moved when sets are merged, so what a set put
together from the nodes of a tree holds at a place is what one of the nodes holds there.
-/
namespace RankedGrammar

theorem Position.eq_of_not_lt {p q : Position} (h : ¬ p < q) (h' : ¬ q < p) : p = q := by
  have hlt : ∀ a b : Position, a < b ↔ a.line < b.line ∨ a.line = b.line ∧ a.column < b.column :=
    fun _ _ => Iff.rfl
  rw [hlt] at h h'
  obtain ⟨line, column⟩ := p
  obtain ⟨line', column'⟩ := q
  dsimp only at h h'
  rw [Position.mk.injEq]
  omega

namespace Expectation

/-- The name is among those of an entry at the place. -/
def Listed (position : Position) (name : String) (xs : List Expectation) : Prop :=
  ∃ x ∈ xs, x.position = position ∧ name ∈ x.names

variable {position : Position} {name : String} {a b : Expectation} {xs ys : List Expectation}

@[simp] theorem listed_nil : ¬ Listed position name [] := by simp [Listed]

@[simp] theorem listed_cons : Listed position name (a :: xs) ↔
    a.position = position ∧ name ∈ a.names ∨ Listed position name xs := by
  simp [Listed]

theorem mem_names_union : name ∈ (a.union b).names ↔ name ∈ a.names ∨ name ∈ b.names := by
  by_cases hmem : name ∈ a.names
  · simp [union, hmem]
  · simp [union, hmem]

theorem listed_mergeInto {rest : List Expectation → List Expectation}
    (h : ∀ bs, Listed position name (rest bs) ↔ Listed position name xs ∨ Listed position name bs)
    (bs : List Expectation) :
    Listed position name (a.mergeInto rest bs) ↔
      Listed position name (a :: xs) ∨ Listed position name bs := by
  induction bs with
  | nil => simp [mergeInto, h]
  | cons b bs ih =>
    rw [mergeInto]
    split
    · rw [listed_cons, ih, listed_cons, listed_cons]
      tauto
    · next hnot =>
      split
      · simp only [listed_cons, h, or_assoc]
      · next hnot' =>
        have hsame : b.position = a.position := Position.eq_of_not_lt hnot hnot'
        rw [listed_cons, h, mem_names_union, listed_cons, listed_cons, hsame]
        show a.position = position ∧ _ ∨ _ ↔ _
        tauto

theorem listed_merge (xs ys : List Expectation) :
    Listed position name (merge xs ys) ↔ Listed position name xs ∨ Listed position name ys := by
  induction xs generalizing ys with
  | nil => simp [merge]
  | cons a xs ih =>
    cases ys with
    | nil => simp [merge]
    | cons b ys => exact listed_mergeInto ih (b :: ys)

/-- A property that two entries at one place hand on to their union is kept by a merge. -/
theorem forall_mem_merge {Q : Expectation → Prop} (hunion : ∀ {a b}, Q a → Q b → Q (a.union b))
    (hxs : ∀ x ∈ xs, Q x) (hys : ∀ y ∈ ys, Q y) : ∀ x ∈ merge xs ys, Q x := by
  induction xs generalizing ys with
  | nil => exact hys
  | cons a xs ih =>
    obtain ⟨ha, hxs⟩ := List.forall_mem_cons.1 hxs
    cases ys with
    | nil => exact List.forall_mem_cons.2 ⟨ha, hxs⟩
    | cons b ys =>
      rw [merge]
      generalize b :: ys = bs at hys
      induction bs with
      | nil => exact List.forall_mem_cons.2 ⟨ha, ih hxs hys⟩
      | cons b bs ihs =>
        obtain ⟨hb, hbs⟩ := List.forall_mem_cons.1 hys
        rw [mergeInto]
        split
        · exact List.forall_mem_cons.2 ⟨hb, ihs hbs⟩
        split
        · exact List.forall_mem_cons.2 ⟨ha, ih hxs hys⟩
        · exact List.forall_mem_cons.2 ⟨hunion ha hb, ih hxs hbs⟩

end Expectation

namespace Expectations

variable {position : Position} {name : String} {s t : Expectations}

def Has (s : Expectations) (position : Position) (name : String) : Prop :=
  Expectation.Listed position name s.entries

@[simp] theorem has_empty : ¬ empty.Has position name := Expectation.listed_nil

@[simp] theorem has_single {position' : Position} {name' : String} :
    (single position' name').Has position name ↔ position = position' ∧ name = name' := by
  unfold Has single
  rw [Expectation.listed_cons, List.mem_singleton]
  simp [eq_comm]

@[simp] theorem has_merge :
    (s.merge t).Has position name ↔ s.Has position name ∨ t.Has position name :=
  Expectation.listed_merge s.entries t.entries

theorem exists_furthest (h : s.Has position name) : ∃ x ∈ s.entries, s.furthest? = some x := by
  obtain ⟨x, hx, -⟩ := h
  have hlast := List.getLast?_eq_some_getLast (List.ne_nil_of_mem hx)
  exact ⟨_, List.mem_of_getLast? hlast, hlast⟩

theorem has_foldl_merge {α : Type} (f : α → Expectations) (ids : List α) :
    (ids.foldl (fun e n => e.merge (f n)) s).Has position name ↔
      s.Has position name ∨ ∃ n ∈ ids, (f n).Has position name := by
  induction ids generalizing s with
  | nil => simp
  | cons id ids ih => simp [ih, or_assoc]

end Expectations

theorem Tree.WellFormed.has_expected {t : Tree} (h : t.WellFormed) {n : NodeId}
    {position : Position} {name : String} :
    (t.expected n).Has position name ↔
      ∃ d, t.Reaches n d ∧ (t.node d).expected.Has position name := by
  unfold Tree.expected
  simp only [Expectations.has_foldl_merge, Expectations.has_empty, false_or, h.mem_descendants]

/-- What is expected below the listed nodes is what some node below one of them expected. -/
theorem RunState.has_expectedOf {s : RunState} {ids : List NodeId} {position : Position}
    {name : String} (hs : s.tree.WellFormed) :
    (s.expectedOf ids).Has position name ↔
      ∃ c ∈ ids, ∃ d, s.tree.Reaches c d ∧ (s.node d).expected.Has position name := by
  unfold expectedOf
  simp only [Expectations.has_foldl_merge, Expectations.has_empty, false_or, hs.has_expected]
  rfl

end RankedGrammar
