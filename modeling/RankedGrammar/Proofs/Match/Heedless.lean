import RankedGrammar.Proofs.Match.Simulation

/-!
What a body heeds. What comes of a part of a rule, and the branches that it adds, is told from the
name, the role and the cursor of its node. The branches that the node has already, what it has
recorded and expected so far and whether it is marked as matched make no difference.
-/
namespace RankedGrammar

/-- The node without its mark and without what it has recorded and expected. -/
def Node.plain (n : Node) : Node :=
  { n with literal := none, expected := .empty, matched := false }

namespace Sprout

variable {b b' : Sprout}

theorem cursor_of_plain (h : b.label.plain = b'.label.plain) : b.cursor = b'.cursor := by
  show b.label.plain.point = b'.label.plain.point
  rw [h]

theorem plain_moveTo (h : b.label.plain = b'.label.plain) (point : Nat) :
    (b.moveTo point).label.plain = (b'.moveTo point).label.plain :=
  congrArg (fun n : Node => { n with point }) h

end Sprout

/-- The nodes at the bottom differ in what they have recorded and expected at most, and in their
marks. -/
structure Sprout.Alike (b b' : Sprout) : Prop where
  label : b.label.plain = b'.label.plain
  branches : b.branches = b'.branches

namespace Sprout.Alike

variable {b b' b'' : Sprout}

theorem symm (h : b.Alike b') : b'.Alike b := ⟨h.label.symm, h.branches.symm⟩

theorem trans (h : b.Alike b') (h' : b'.Alike b'') : b.Alike b'' :=
  ⟨h.label.trans h'.label, h.branches.trans h'.branches⟩

theorem cursor (h : b.Alike b') : b.cursor = b'.cursor := cursor_of_plain h.label

end Sprout.Alike

namespace Terminal

variable {src : Source}

/-- The terminal looks neither at what its node has recorded or expected nor at its mark. -/
def Heedless (f : Terminal) : Prop :=
  ∀ n, (f n.plain).1 = (f n).1 ∧ (f n.plain).2.plain = (f n).2.plain

theorem heedless_byte (k : ByteClass) : (byte src k).Heedless := by
  intro n
  unfold byte
  have hsame : src.byteAt? n.plain.point = src.byteAt? n.point := rfl
  rw [hsame]
  cases (src.byteAt? n.point).any k.contains with
  | true => exact ⟨rfl, rfl⟩
  | false => exact ⟨rfl, rfl⟩

theorem heedless_takeRead (reader : List Char → Option (List Char)) :
    (takeRead src reader).Heedless := by
  intro n
  unfold takeRead
  have hsame : src.remaining n.plain.point = src.remaining n.point := rfl
  rw [hsame]
  cases reader (src.remaining n.point) with
  | none => exact ⟨rfl, rfl⟩
  | some cs => exact ⟨rfl, rfl⟩

theorem heedless_attached : (attached src).Heedless := by
  intro n
  unfold attached
  have hsame : n.plain.role.attached? = n.role.attached? := rfl
  rw [hsame]
  cases n.role.attached? with
  | none => exact ⟨rfl, rfl⟩
  | some t =>
    dsimp only
    split
    · exact ⟨rfl, rfl⟩
    · exact heedless_takeRead _ n

end Terminal

theorem Expr.Own.heedless {src : Source} {e : Expr} {f : Terminal} (h : e.Own src f) :
    f.Heedless := by
  cases h with
  | byte k => exact Terminal.heedless_byte k
  | text t => exact Terminal.heedless_takeRead _
  | attached => exact Terminal.heedless_attached
  | pattern p => exact Terminal.heedless_takeRead _
  | _ => exact fun _ => ⟨rfl, rfl⟩

/-- From `b` and `b'`, which have the same node at the bottom as far as rules heed it, `c` and `c'`
have come, again with the same node and with the same branches more. -/
structure Sprout.GainAlike (b b' c c' : Sprout) : Prop where
  label : c.label.plain = c'.label.plain
  branches : ∃ new, c.branches = b.branches ++ new ∧ c'.branches = b'.branches ++ new

namespace Sprout.GainAlike

variable {b b' c c' d d' : Sprout}

theorem refl (h : b.label.plain = b'.label.plain) : GainAlike b b' b b' :=
  ⟨h, [], by simp⟩

theorem trans (h : GainAlike b b' c c') (h' : GainAlike c c' d d') : GainAlike b b' d d' := by
  obtain ⟨new, hnew, hnew'⟩ := h.branches
  obtain ⟨more, hmore, hmore'⟩ := h'.branches
  refine ⟨h'.label, new ++ more, ?_, ?_⟩
  · rw [hmore, hnew, List.append_assoc]
  · rw [hmore', hnew', List.append_assoc]

theorem cursor (h : GainAlike b b' c c') : c.cursor = c'.cursor := cursor_of_plain h.label

theorem moveTo (h : GainAlike b b' c c') (point : Nat) :
    GainAlike b b' (c.moveTo point) (c'.moveTo point) :=
  ⟨plain_moveTo h.label point, h.branches⟩

theorem drop_branches (h : GainAlike b b' c c') :
    c.branches.drop b.branches.length = c'.branches.drop b'.branches.length := by
  obtain ⟨new, hnew, hnew'⟩ := h.branches
  rw [hnew, hnew', List.drop_left, List.drop_left]

theorem take_branches (h : GainAlike b b' c c') :
    c.branches.take b.branches.length = b.branches ∧
      c'.branches.take b'.branches.length = b'.branches := by
  obtain ⟨new, hnew, hnew'⟩ := h.branches
  rw [hnew, hnew', List.take_left, List.take_left]
  exact ⟨rfl, rfl⟩

end Sprout.GainAlike

namespace Growth
open Step (Trial)

/-- Alike sprouts have the same outcome and grow into alike ones. -/
def Heedless (g : Growth) : Prop :=
  ∀ b b' : Sprout, b.Alike b' → ∀ ok c, g b = some (ok, c) →
    ∃ c', g b' = some (ok, c') ∧ c.Alike c'

/-- Sprouts with the same node at the bottom, as far as rules heed it, have the same outcome and get
the same branches more, whatever branches they have. -/
def Additive (g : Growth) : Prop :=
  ∀ b b' : Sprout, b.label.plain = b'.label.plain → ∀ ok c, g b = some (ok, c) →
    ∃ c', g b' = some (ok, c') ∧ Sprout.GainAlike b b' c c'

variable {g : Growth} {gs : List Growth} {b b' : Sprout}

theorem Additive.heedless (h : Additive g) : Heedless g := by
  intro b b' hb ok c hrun
  obtain ⟨c', hrun', hgain⟩ := h b b' hb.label ok c hrun
  obtain ⟨new, hnew, hnew'⟩ := hgain.branches
  exact ⟨c', hrun', hgain.label, by rw [hnew, hnew', hb.branches]⟩

theorem additive_const (ok : Bool) : Additive (const ok) := by
  intro b b' h ok' c hrun
  cases hrun
  exact ⟨b', rfl, .refl h⟩

theorem additive_own {f : Terminal} (hf : f.Heedless) : Additive (own f) := by
  intro b b' h ok c hrun
  obtain ⟨hok, hplain⟩ := hf b.label
  obtain ⟨hok', hplain'⟩ := hf b'.label
  rw [h] at hok hplain
  cases hrun
  refine ⟨.mk (f b'.label).2 b'.branches, ?_, hplain.symm.trans hplain', [], by simp⟩
  rw [← hok, hok']
  rfl

theorem additive_ifElse {yes no : Growth} (h : Additive g) (hyes : Additive yes)
    (hno : Additive no) : Additive (ifElse g yes no) := by
  intro b b' hb ok c hrun
  unfold ifElse
  obtain ⟨b₁, hfirst, hrest⟩ | ⟨b₁, hfirst, hrest⟩ := exists_of_ifElse hrun
  · obtain ⟨b₁', hfirst', hb₁⟩ := h b b' hb _ _ hfirst
    obtain ⟨c', hrest', hc⟩ := hyes b₁ b₁' hb₁.label _ _ hrest
    exact ⟨c', by rw [hfirst']; exact hrest', hb₁.trans hc⟩
  · obtain ⟨b₁', hfirst', hb₁⟩ := h b b' hb _ _ hfirst
    obtain ⟨c', hrest', hc⟩ := hno b₁ b₁' hb₁.label _ _ hrest
    exact ⟨c', by rw [hfirst']; exact hrest', hb₁.trans hc⟩

theorem additive_all (h : ∀ g ∈ gs, Additive g) : Additive (all gs) := by
  induction gs with
  | nil => exact additive_const true
  | cons g gs ih =>
    obtain ⟨hg, hgs⟩ := List.forall_mem_cons.1 h
    exact additive_ifElse hg (ih hgs) (additive_const false)

theorem additive_any (h : ∀ g ∈ gs, Additive g) : Additive (any gs) := by
  induction gs with
  | nil => exact additive_const false
  | cons g gs ih =>
    obtain ⟨hg, hgs⟩ := List.forall_mem_cons.1 h
    exact additive_ifElse hg (additive_const true) (ih hgs)

theorem additive_negate (h : Additive g) : Additive (negate g) := by
  rw [negate_eq]
  exact additive_ifElse h (additive_const false) (additive_const true)

theorem additive_sequence (h : ∀ g ∈ gs, Additive g) : Additive (sequence gs) := by
  intro b b' hb ok c hrun
  obtain ⟨b₁, hall, rfl⟩ := exists_of_sequence hrun
  obtain ⟨b₁', hall', hb₁⟩ := additive_all h b b' hb _ _ hall
  unfold sequence
  rw [hall']
  cases ok with
  | true => exact ⟨b₁', rfl, hb₁⟩
  | false => exact ⟨b₁'.moveTo b'.cursor, rfl, Sprout.cursor_of_plain hb ▸ hb₁.moveTo b.cursor⟩

/-- The trials are the same, and leave each of the sprouts with the branches that it had. -/
theorem trials_of_plain (h : ∀ g ∈ gs, Additive g) (point : Nat)
    (hb : b.label.plain = b'.label.plain) {ts : List (Trial Sprout)} {c : Sprout}
    (hrun : trials point b.branches.length gs b = some (ts, c)) :
    ∃ c', trials point b'.branches.length gs b' = some (ts, c') ∧
      c.label.plain = c'.label.plain ∧ c.branches = b.branches ∧ c'.branches = b'.branches := by
  induction gs generalizing b b' ts with
  | nil =>
    cases hrun
    exact ⟨b', rfl, hb, rfl, rfl⟩
  | cons g gs ih =>
    obtain ⟨hg, hgs⟩ := List.forall_mem_cons.1 h
    rw [trials] at hrun
    cases hfirst : g (b.moveTo point) with
    | none =>
      rw [hfirst] at hrun
      cases hrun
    | some grown =>
      obtain ⟨matched, b₁⟩ := grown
      obtain ⟨b₁', hfirst', hb₁⟩ := hg _ _ (Sprout.plain_moveTo hb point) _ _ hfirst
      obtain ⟨hcut, hcut'⟩ : b₁.branches.take b.branches.length = b.branches ∧
          b₁'.branches.take b'.branches.length = b'.branches := hb₁.take_branches
      have hnew : b₁.branches.drop b.branches.length = b₁'.branches.drop b'.branches.length :=
        hb₁.drop_branches
      rw [hfirst] at hrun
      dsimp only at hrun
      rw [hcut] at hrun
      cases hrest : trials point b.branches.length gs (.mk b₁.label b.branches) with
      | none =>
        rw [hrest] at hrun
        cases hrun
      | some grown =>
        obtain ⟨rest, b₂⟩ := grown
        rw [hrest] at hrun
        cases hrun
        have hback : (Branch.mk b₁.label b.branches).label.plain =
            (Branch.mk b₁'.label b'.branches).label.plain := hb₁.label
        obtain ⟨b₂', hrest', hb₂, hkept, hkept'⟩ := ih hgs hback hrest
        rw [Branch.branches_mk] at hrest'
        refine ⟨b₂', ?_, hb₂, hkept, hkept'⟩
        rw [trials, hfirst']
        dsimp only
        rw [hcut', hrest', hb₁.cursor, hnew]

theorem gainAlike_settle (hb : b.label.plain = b'.label.plain) (point : Nat)
    (ts : List (Trial Sprout)) :
    (settle point ts b').1 = (settle point ts b).1 ∧
      Sprout.GainAlike b b' (settle point ts b).2 (settle point ts b').2 := by
  have hmoved := Sprout.plain_moveTo hb
  unfold settle
  cases Step.heaviest (Step.ranked Sprout.weight 1 ts) with
  | none => exact ⟨rfl, hmoved point, [], by simp⟩
  | some best => exact ⟨rfl, hmoved best.trial.point, best.trial.children, rfl, rfl⟩

theorem additive_alternation (h : ∀ g ∈ gs, Additive g) : Additive (alternation gs) := by
  intro b b' hb ok c hrun
  obtain ⟨ts, b₁, htrials, hsettle⟩ := exists_of_alternation hrun
  obtain ⟨b₁', htrials', hb₁, hkept, hkept'⟩ := trials_of_plain h b.cursor hb htrials
  obtain ⟨hok, hend⟩ := gainAlike_settle hb₁ b.cursor ts
  rw [hsettle] at hok hend
  refine ⟨(settle b.cursor ts b₁').2, ?_, hend.label, ?_⟩
  · unfold alternation
    rw [← Sprout.cursor_of_plain hb, htrials']
    exact congrArg some (Prod.ext hok rfl)
  · rw [← hkept, ← hkept']
    exact hend.branches

theorem turns_of_plain (h : Additive g) {fuel count count' : Nat} {c : Sprout}
    (hb : b.label.plain = b'.label.plain) (hrun : turns g fuel count b = some (count', c)) :
    ∃ c', turns g fuel count b' = some (count', c') ∧ Sprout.GainAlike b b' c c' := by
  induction fuel generalizing count b b' with
  | zero =>
    cases hrun
    exact ⟨b', rfl, .refl hb⟩
  | succ fuel ih =>
    obtain ⟨matched, b₁, hturn, hnext⟩ := exists_of_turns hrun
    obtain ⟨b₁', hturn', hb₁⟩ := h b b' hb _ _ hturn
    rw [turns, hturn] at hrun
    rw [turns, hturn']
    dsimp only at hrun ⊢
    rw [← Sprout.cursor_of_plain hb, ← hb₁.cursor]
    by_cases hon : (matched && b.cursor < b₁.cursor) = true
    · rw [if_pos hon] at hrun ⊢
      obtain ⟨c', hrest', hc⟩ := ih hb₁.label hrun
      exact ⟨c', hrest', hb₁.trans hc⟩
    · rw [if_neg hon] at hrun ⊢
      cases hrun
      -- the branches of the last turn are cut off, whatever they are
      obtain ⟨hcut, hcut'⟩ := hb₁.take_branches
      exact ⟨_, rfl, (hb₁.moveTo b.cursor).label, [], by simp [takeBack, hcut, hcut']⟩

theorem additive_counted (src : Source) (test : Nat → Bool) (h : Additive g) :
    Additive (counted src test g) := by
  intro b b' hb ok c hrun
  obtain ⟨count, rfl, hturns⟩ := exists_of_counted hrun
  obtain ⟨b₁', hturns', hb₁⟩ := turns_of_plain h hb hturns
  refine ⟨b₁', ?_, hb₁⟩
  rw [counted, iterate, ← Sprout.cursor_of_plain hb, hturns']

theorem additive_call (ctx : Context) (grow : Growth) (c : Call) : Additive (call ctx grow c) := by
  intro b b' hb ok b₁ hrun
  obtain ⟨child, hgrow, rfl⟩ := exists_of_call hrun
  rw [Sprout.cursor_of_plain hb] at hgrow
  refine ⟨_, call_eq hgrow, ?_, [child], rfl, rfl⟩
  cases ok with
  | true => exact Sprout.plain_moveTo hb child.cursor
  | false =>
    have hsame : ∀ n : Node, (n.missed ctx.source c).plain = n.plain :=
      Node.missed_spares (fun _ _ => rfl) ctx.source c
    exact (hsame b.label).trans (hb.trans (hsame b'.label).symm)

end Growth

theorem Expr.additive_growth (ctx : Context) (grow : Growth) (e : Expr) :
    Growth.Additive (e.growth ctx grow) := by
  induction e using Expr.induct ctx.source with
  | call c =>
    rw [c.growth_body]
    exact Growth.additive_call ctx grow c
  | seq es ih => exact Growth.additive_sequence (forall_mem_growths ih)
  | alt es ih => exact Growth.additive_alternation (forall_mem_growths ih)
  | many e ih => exact Growth.additive_counted ctx.source _ ih
  | tally e least ih => exact Growth.additive_counted ctx.source _ ih
  | counted e test ih => exact Growth.additive_counted ctx.source test ih
  | own hown =>
    rw [hown.growth_eq]
    exact Growth.additive_own hown.heedless
  | probe label => exact Growth.additive_const true
  | not e ih => exact Growth.additive_negate ih
  | all es ih => exact Growth.additive_all (forall_mem_growths ih)
  | any es ih => exact Growth.additive_any (forall_mem_growths ih)
  | ifElse e yes no ihe ihyes ihno => exact Growth.additive_ifElse ihe ihyes ihno
  | const ok => exact Growth.additive_const ok

theorem Expr.heedless_growths (ctx : Context) (grow : Growth) (es : List Expr) :
    ∀ g ∈ Expr.growths ctx grow es, Growth.Heedless g :=
  forall_mem_growths fun e _ => (e.additive_growth ctx grow).heedless

end RankedGrammar
