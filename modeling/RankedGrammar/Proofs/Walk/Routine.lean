import RankedGrammar.Proofs.Walk.Exact
import RankedGrammar.Walk.Visitor

/-!
Routines that only move on. Whatever a visitor asks for in its turn, the walk stays exact, each node
eaten is the next one, and no loop or nesting of visits goes beyond the nodes that are left, so that
larger bounds give the same.
-/
namespace RankedGrammar

variable {σ : Type} {t : Tree} {w : Walk}

/-- The routine neither works on a copy of the walk nor begins it again. -/
def Routine.Forward : Routine σ → Prop
  | done _ => True
  | look next => ∀ w, (next w).Forward
  | skip next => ∀ id, (next id).Forward
  | eat _ next => ∀ id data, (next id data).Forward
  | execute _ next => ∀ n data, (next n data).Forward
  | consume _ _ next => ∀ id data, (next id data).Forward
  | fork _ _ => False
  | restart _ => False
  | collapse _ => False

def Visitor.Forward (v : Visitor σ) : Prop := ∀ id data w, (v id data w).Forward

namespace Walk

/-- The number of nodes still to be handed out. -/
def left (t : Tree) (w : Walk) : Nat := t.postorder.length - w.history.length

theorem Exact.advance_none (ht : t.WellFormed) (h : w.Exact t) (hleft : w.left t = 0)
    (told : Bool) : w.advance told = (none, w) := by
  have hnone : t.postorder[w.history.length]? = none := by
    unfold left at hleft
    exact List.getElem?_eq_none (by omega)
  rw [advance, h.peek ht, hnone]

theorem Exact.advance_some (ht : t.WellFormed) (h : w.Exact t) (hleft : 0 < w.left t)
    (told : Bool) : ∃ id, t.postorder[w.history.length]? = some id ∧
      w.advance told = (some id, w.handOut id told) ∧ (w.handOut id told).Exact t ∧
      (w.handOut id told).left t + 1 = w.left t := by
  unfold left at hleft
  have hlt : w.history.length < t.postorder.length := by omega
  have hget := List.getElem?_eq_getElem hlt
  refine ⟨_, hget, ?_, h.handOut ht hget told, ?_⟩
  · rw [advance, h.peek ht, hget]
  · show t.postorder.length - (w.history.length + 1) + 1 = t.postorder.length - w.history.length
    omega

end Walk

/-- What holds before a node is eaten holds after it. -/
def Eater.Preserves (I : Walk → σ → Prop) (eat : Eater σ) : Prop :=
  ∀ w data, I w data → I (eat w data).2.1 (eat w data).2.2

namespace Eater.Preserves

variable {I : Walk → σ → Prop} {eat : Eater σ}

theorem execute (h : eat.Preserves I) (fuel : Nat) (data : σ) (hw : I w data) :
    I (eat.execute fuel w data).2.1 (eat.execute fuel w data).2.2 := by
  induction fuel generalizing w data with
  | zero => exact hw
  | succ fuel ih =>
    have hnext := h w data hw
    rw [Eater.execute]
    generalize eat w data = out at hnext ⊢
    obtain ⟨id, w', data'⟩ := out
    cases id with
    | none => exact hnext
    | some id => exact ih data' hnext

theorem consume (h : eat.Preserves I) (name : String) (fuel : Nat) (data : σ) (hw : I w data) :
    I (eat.consume name fuel w data).2.1 (eat.consume name fuel w data).2.2 := by
  induction fuel generalizing w data with
  | zero => exact hw
  | succ fuel ih =>
    have hnext := h w data hw
    rw [Eater.consume]
    generalize eat w data = out at hnext ⊢
    obtain ⟨id, w', data'⟩ := out
    cases id with
    | none => exact hnext
    | some id =>
      dsimp only
      split
      · exact hnext
      · exact ih data' hnext

end Eater.Preserves

/-- The eater eats the next node of any walk with fewer than `n` nodes left, and lets the walk move
on in between. -/
def Eater.Walks (t : Tree) (n : Nat) (eat : Eater σ) : Prop :=
  ∀ w data, w.Exact t → w.left t < n →
    (w.left t = 0 → eat w data = (none, w, data)) ∧
    (0 < w.left t → ∃ id w' data', t.postorder[w.history.length]? = some id ∧
      eat w data = (some id, w', data') ∧ w'.Exact t ∧ w'.left t < w.left t)

/-- The eaters do the same with any walk that has fewer than `n` nodes left. -/
def Eater.Same (t : Tree) (n : Nat) (eat eat' : Eater σ) : Prop :=
  ∀ w data, w.Exact t → w.left t < n → eat w data = eat' w data

namespace Eater

variable {n fuel fuel' : Nat} {eat eat' : Eater σ}

theorem Walks.execute (h : eat.Walks t n) (data : σ) (hw : w.Exact t) (hn : w.left t < n)
    (hfuel : w.left t < fuel) :
    (eat.execute fuel w data).2.1.Exact t ∧ (eat.execute fuel w data).2.1.left t = 0 := by
  induction fuel generalizing w data with
  | zero => omega
  | succ fuel ih =>
    rw [Eater.execute]
    obtain ⟨hzero, hpos⟩ := h w data hw hn
    by_cases hleft : w.left t = 0
    · rw [hzero hleft]
      exact ⟨hw, hleft⟩
    · obtain ⟨id, w', data', -, heat, hw', hlt⟩ := hpos (by omega)
      rw [heat]
      exact ih data' hw' (by omega) (by omega)

theorem Walks.consume (h : eat.Walks t n) (name : String) (data : σ) (hw : w.Exact t)
    (hn : w.left t < n) : (eat.consume name fuel w data).2.1.Exact t ∧
      (eat.consume name fuel w data).2.1.left t ≤ w.left t := by
  induction fuel generalizing w data with
  | zero => exact ⟨hw, Nat.le_refl _⟩
  | succ fuel ih =>
    rw [Eater.consume]
    obtain ⟨hzero, hpos⟩ := h w data hw hn
    by_cases hleft : w.left t = 0
    · rw [hzero hleft]
      exact ⟨hw, Nat.le_refl _⟩
    · obtain ⟨id, w', data', -, heat, hw', hlt⟩ := hpos (by omega)
      rw [heat]
      dsimp only
      split
      · exact ⟨hw', Nat.le_of_lt hlt⟩
      · obtain ⟨hexact, hle⟩ := ih data' hw' (by omega)
        exact ⟨hexact, by omega⟩

theorem Same.execute (h : eat.Walks t n) (hsame : eat.Same t n eat') (data : σ) (hw : w.Exact t)
    (hn : w.left t < n) (hfuel : w.left t < fuel) (hfuel' : w.left t < fuel') :
    eat.execute fuel w data = eat'.execute fuel' w data := by
  induction fuel generalizing fuel' w data with
  | zero => omega
  | succ fuel ih =>
    cases fuel' with
    | zero => omega
    | succ fuel' =>
      rw [Eater.execute, Eater.execute, ← hsame w data hw hn]
      obtain ⟨hzero, hpos⟩ := h w data hw hn
      by_cases hleft : w.left t = 0
      · rw [hzero hleft]
      · obtain ⟨id, w', data', -, heat, hw', hlt⟩ := hpos (by omega)
        have hsucc : w'.left t < fuel := by omega
        have hsucc' : w'.left t < fuel' := by omega
        rw [heat]
        dsimp only
        rw [ih data' hw' (by omega) hsucc hsucc']

theorem Same.consume (h : eat.Walks t n) (hsame : eat.Same t n eat') (name : String) (data : σ)
    (hw : w.Exact t) (hn : w.left t < n) (hfuel : w.left t < fuel) (hfuel' : w.left t < fuel') :
    eat.consume name fuel w data = eat'.consume name fuel' w data := by
  induction fuel generalizing fuel' w data with
  | zero => omega
  | succ fuel ih =>
    cases fuel' with
    | zero => omega
    | succ fuel' =>
      rw [Eater.consume, Eater.consume, ← hsame w data hw hn]
      obtain ⟨hzero, hpos⟩ := h w data hw hn
      by_cases hleft : w.left t = 0
      · rw [hzero hleft]
      · obtain ⟨id, w', data', -, heat, hw', hlt⟩ := hpos (by omega)
        have hsucc : w'.left t < fuel := by omega
        have hsucc' : w'.left t < fuel' := by omega
        rw [heat]
        dsimp only
        rw [ih data' hw' (by omega) hsucc hsucc']

end Eater

namespace Routine

variable {n fuel fuel' : Nat} {eat eat' : Eater σ}

/-- A walk is exact after a routine if it was before. -/
theorem exact_run (ht : t.WellFormed) (heat : eat.Walks t n) {r : Routine σ} (hr : r.Forward)
    (hw : w.Exact t) (hn : w.left t < n) (hfuel : w.left t < fuel) :
    (r.run eat fuel w).1.Exact t ∧ (r.run eat fuel w).1.left t ≤ w.left t := by
  induction r generalizing w with
  | done data => exact ⟨hw, Nat.le_refl _⟩
  | look next ih => exact ih w (hr w) hw hn hfuel
  | skip next ih =>
    rw [run]
    by_cases hleft : w.left t = 0
    · rw [hw.advance_none ht hleft]
      exact ih none (hr none) hw hn hfuel
    · obtain ⟨id, -, hadvance, hw', hlt⟩ := hw.advance_some ht (by omega) false
      rw [hadvance]
      obtain ⟨hexact, hle⟩ := ih (some id) (hr _) hw' (by omega) (by omega)
      exact ⟨hexact, Nat.le_trans hle (by omega)⟩
  | eat data next ih =>
    rw [run]
    obtain ⟨hzero, hpos⟩ := heat w data hw hn
    by_cases hleft : w.left t = 0
    · rw [hzero hleft]
      exact ih none data (hr none data) hw hn hfuel
    · obtain ⟨id, w', data', -, heq, hw', hlt⟩ := hpos (by omega)
      rw [heq]
      obtain ⟨hexact, hle⟩ := ih (some id) data' (hr _ _) hw' (by omega) (by omega)
      exact ⟨hexact, Nat.le_trans hle (Nat.le_of_lt hlt)⟩
  | execute data next ih =>
    rw [run]
    obtain ⟨hw', hleft⟩ := heat.execute data hw hn hfuel
    obtain ⟨hexact, hle⟩ := ih _ _ (hr _ _) hw' (by omega) (by omega)
    exact ⟨hexact, Nat.le_trans hle (by omega)⟩
  | consume name data next ih =>
    rw [run]
    obtain ⟨hw', hleft⟩ := heat.consume name data hw hn
    obtain ⟨hexact, hle⟩ := ih _ _ (hr _ _) hw' (by omega) (by omega)
    exact ⟨hexact, Nat.le_trans hle hleft⟩
  | fork data next => exact absurd hr id
  | restart next => exact absurd hr id
  | collapse next => exact absurd hr id

/-- Two eaters and two bounds make no difference to a routine that both allow for. -/
theorem run_congr (ht : t.WellFormed) (heat : eat.Walks t n) (hsame : eat.Same t n eat')
    {r : Routine σ} (hr : r.Forward) (hw : w.Exact t) (hn : w.left t < n) (hfuel : w.left t < fuel)
    (hfuel' : w.left t < fuel') : r.run eat fuel w = r.run eat' fuel' w := by
  induction r generalizing w with
  | done data => rfl
  | look next ih => exact ih w (hr w) hw hn hfuel hfuel'
  | skip next ih =>
    rw [run, run]
    by_cases hleft : w.left t = 0
    · rw [hw.advance_none ht hleft]
      exact ih none (hr none) hw hn hfuel hfuel'
    · obtain ⟨id, -, hadvance, hw', hlt⟩ := hw.advance_some ht (by omega) false
      rw [hadvance]
      exact ih (some id) (hr _) hw' (by omega) (by omega) (by omega)
  | eat data next ih =>
    rw [run, run, ← hsame w data hw hn]
    obtain ⟨hzero, hpos⟩ := heat w data hw hn
    by_cases hleft : w.left t = 0
    · rw [hzero hleft]
      exact ih none data (hr none data) hw hn hfuel hfuel'
    · obtain ⟨id, w', data', -, heq, hw', hlt⟩ := hpos (by omega)
      rw [heq]
      exact ih (some id) data' (hr _ _) hw' (by omega) (by omega) (by omega)
  | execute data next ih =>
    rw [run, run, ← hsame.execute heat data hw hn hfuel hfuel']
    obtain ⟨hw', hleft⟩ := heat.execute data hw hn hfuel
    have hle : (eat.execute fuel w data).2.1.left t ≤ w.left t := by omega
    exact ih _ _ (hr _ _) hw' (Nat.lt_of_le_of_lt hle hn) (Nat.lt_of_le_of_lt hle hfuel)
      (Nat.lt_of_le_of_lt hle hfuel')
  | consume name data next ih =>
    rw [run, run, ← hsame.consume heat name data hw hn hfuel hfuel']
    obtain ⟨hw', hle⟩ := heat.consume name data hw hn
    exact ih _ _ (hr _ _) hw' (Nat.lt_of_le_of_lt hle hn) (Nat.lt_of_le_of_lt hle hfuel)
      (Nat.lt_of_le_of_lt hle hfuel')
  | fork data next => exact absurd hr id
  | restart next => exact absurd hr id
  | collapse next => exact absurd hr id

end Routine

namespace Walk

variable {v : Visitor σ} {fuel fuel' : Nat}

/-- Visits may be nested as deeply as there are nodes left. -/
theorem walks_eatWithin (ht : t.WellFormed) (hv : v.Forward) (hfuel : t.postorder.length < fuel)
    (levels : Nat) : Eater.Walks t levels (eatWithin v fuel levels) := by
  induction levels with
  | zero =>
    intro w data _ hn
    omega
  | succ levels ih =>
    intro w data hw hn
    rw [eatWithin]
    constructor
    · intro hleft
      rw [hw.advance_none ht hleft]
    · intro hleft
      obtain ⟨id, hid, hadvance, hw', hlt⟩ := hw.advance_some ht hleft true
      have hbound : (w.handOut id true).left t < fuel := by
        unfold left
        omega
      obtain ⟨hexact, hle⟩ :=
        Routine.exact_run ht ih (hv id data (w.handOut id true)) hw' (by omega) hbound
      rw [hadvance]
      exact ⟨id, _, _, hid, rfl, hexact, by omega⟩

theorem same_eatWithin (ht : t.WellFormed) (hv : v.Forward) (hfuel : t.postorder.length < fuel)
    (hfuel' : t.postorder.length < fuel') {levels levels' : Nat} (hlevels : levels ≤ levels') :
    Eater.Same t levels (eatWithin v fuel levels) (eatWithin v fuel' levels') := by
  induction levels generalizing levels' with
  | zero =>
    intro w data _ hn
    omega
  | succ levels ih =>
    cases levels' with
    | zero => omega
    | succ levels' =>
      intro w data hw hn
      rw [eatWithin, eatWithin]
      by_cases hleft : w.left t = 0
      · rw [hw.advance_none ht hleft]
      · obtain ⟨id, -, hadvance, hw', hlt⟩ := hw.advance_some ht (by omega) true
        have hbound : (w.handOut id true).left t < fuel := by
          unfold left
          omega
        have hbound' : (w.handOut id true).left t < fuel' := by
          unfold left
          omega
        have hsame := ih (Nat.le_of_succ_le_succ hlevels)
        rw [hadvance]
        dsimp only
        rw [Routine.run_congr ht (walks_eatWithin ht hv hfuel levels) hsame
          (hv id data (w.handOut id true)) hw' (by omega) hbound hbound']

/-- A routine is carried out to its end: larger bounds change nothing. -/
theorem perform_eq_run (ht : t.WellFormed) (hv : v.Forward) {r : Routine σ} (hr : r.Forward)
    (hw : w.Exact t) {levels : Nat} (hlevels : w.places ≤ levels) (hfuel : w.places ≤ fuel) :
    w.perform v r = r.run (eatWithin v fuel levels) fuel w := by
  have hsize := ht.length_postorder_le
  have hplaces : t.postorder.length < w.places := by
    unfold places
    rw [hw.size]
    omega
  have hleft : w.left t < w.places := by
    unfold left
    omega
  exact Routine.run_congr ht (walks_eatWithin ht hv hplaces w.places)
    (same_eatWithin ht hv hplaces (by omega) hlevels) hr hw hleft hleft (by omega)

end Walk

end RankedGrammar
