import RankedGrammar.Proofs.Walk.Linked
import RankedGrammar.Proofs.Walk.Observed

/-!
The walks that come about over a tree. Whatever a visitor asks for, a walk only moves on, begins again
or collapses its tree; so it always stands somewhere in the post-order of the tree that it has come to.
-/
namespace RankedGrammar

/-- The walks over a tree, from the beginning and after each move. -/
inductive Walk.Reached (t : Tree) : Walk → Prop
  | start (language : String) : Reached t (.start t language)
  | advance {w : Walk} (h : Reached t w) (told : Bool) : Reached t (w.advance told).2
  | restart {w : Walk} (h : Reached t w) : Reached t w.restart
  | collapse {w : Walk} (h : Reached t w) : Reached t w.collapse.1

variable {σ : Type} {t : Tree} {w : Walk}

namespace Walk.Reached

theorem sorted (ht : t.Sorted) (hw : w.Reached t) : w.tree.Sorted := by
  induction hw with
  | start language => exact ht
  | advance h told ih => exact Eater.Keeps.advance Tree.Sorted.closed _ told ih
  | restart h ih => exact ih
  | collapse h ih => exact Tree.Sorted.closed.collapse _ ih

theorem before (ht : t.Sorted) (hw : w.Reached t) : ∃ ids, w.Before ids := by
  induction hw with
  | start language => exact ⟨t.postorder, .start ht.wellFormed language⟩
  | advance h told ih =>
    obtain ⟨ids, hbefore⟩ := ih
    exact ⟨ids.tail, hbefore.advance told⟩
  | @restart w h ih => exact ⟨w.tree.postorder, .start (h.sorted ht).wellFormed w.language⟩
  | @collapse w h ih =>
    have hsorted := Tree.Sorted.closed.collapse _ (h.sorted ht)
    exact ⟨w.tree.collapse.1.postorder, .start hsorted.wellFormed w.language⟩

end Walk.Reached

/-- The walk is among those over `t`, and so is each one of the log. -/
structure Log.Covered (t : Tree) (log : Log) (w : Walk) : Prop where
  walk : w.Reached t
  moments : ∀ m ∈ log, m.walk.Reached t

theorem Log.Covered.cons {log : Log} (h : log.Covered t w) (told : Option NodeId) :
    Log.Covered t (⟨w, told⟩ :: log) w :=
  ⟨h.walk, List.forall_mem_cons.2 ⟨h.walk, h.moments⟩⟩

/-- The eater puts down such walks only. -/
def Eater.Covers (t : Tree) (eat : Eater (σ × Log)) : Prop :=
  ∀ w d, d.2.Covered t w → (eat w d).2.2.2.Covered t (eat w d).2.1

namespace Eater.Covers

variable {eat : Eater (σ × Log)}

theorem preserves (h : eat.Covers t) : eat.Preserves fun w d => d.2.Covered t w := h

theorem run (h : eat.Covers t) (fuel : Nat) (r : Routine σ) {log : Log} (hw : log.Covered t w) :
    ((r.observed log).run eat fuel w).2.2.Covered t ((r.observed log).run eat fuel w).1 := by
  induction r generalizing w log with
  | done data => exact hw.cons none
  | look next ih => exact ih w (hw.cons none)
  | skip next ih => exact ih _ ⟨hw.walk.advance false, (hw.cons none).moments⟩
  | eat data next ih => exact ih _ _ (h w (data, _) (hw.cons none))
  | execute data next ih => exact ih _ _ (h.preserves.execute fuel (data, _) (hw.cons none))
  | consume name data next ih => exact ih _ _ (h.preserves.consume name fuel (data, _) (hw.cons none))
  | fork data next ih =>
    have hcopy := h.preserves.execute fuel (data, _) (hw.cons none)
    exact ih _ _ ⟨hw.walk, hcopy.moments⟩
  | restart next ih => exact ih ⟨hw.walk.restart, (hw.cons none).moments⟩
  | collapse next ih => exact ih _ ⟨hw.walk.collapse, (hw.cons none).moments⟩

end Eater.Covers

namespace Walk

theorem covers_eatWithin (v : Visitor σ) (fuel levels : Nat) :
    Eater.Covers t (eatWithin v.observed fuel levels) := by
  induction levels with
  | zero => exact fun w d hw => hw
  | succ levels ih =>
    intro w d hw
    obtain ⟨data, log⟩ := d
    have hmoved := hw.walk.advance true
    rw [eatWithin]
    cases hadvance : w.advance true with
    | mk id w' =>
      rw [hadvance] at hmoved
      cases id with
      | none => exact ⟨hmoved, hw.moments⟩
      | some id => exact ih.run fuel (v id data w') (Log.Covered.cons ⟨hmoved, hw.moments⟩ (some id))

/-- Every walk that a routine comes to, in a visit or out of it and on a copy or not, is among those
that moves alone lead to. -/
theorem covered_perform (v : Visitor σ) (r : Routine σ) (hw : w.Reached t) :
    (w.perform v.observed (r.observed [])).2.2.Covered t (w.perform v r).1 := by
  rw [← (w.perform_observed v r []).1]
  exact (covers_eatWithin v w.places w.places).run w.places r ⟨hw, by simp⟩

end Walk

end RankedGrammar
