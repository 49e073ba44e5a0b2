import RankedGrammar.Proofs.Match.Weight

/-!
Outcomes of bodies. Whether a body matches and what it leaves of the text is told part by part from
the text after the cursor, as long as rules are not nested too deeply.
-/
namespace RankedGrammar
open Text (byteLength)

namespace Growth
open Step (Trial ranked heaviest)

/-- At the text `cs` the growth matches and leaves a text, or it does not match if there is none. -/
def Leaves (src : Source) (g : Growth) (cs : List Char) (r : Option (List Char)) : Prop :=
  ∀ b ok b', src.tail? b.cursor = some cs → g b = some (ok, b') →
    ok = r.isSome ∧ ∀ ds, r = some ds → src.tail? b'.cursor = some ds

variable {src : Source} {g : Growth} {gs : List Growth} {cs ds : List Char}
  {r : Option (List Char)}

theorem leaves_const_true : Leaves src (const true) cs (some cs) := by
  intro b ok b' hb hrun
  cases hrun
  exact ⟨rfl, fun ds hds => hb.trans hds⟩

theorem leaves_own {f : Terminal} {rest : List Char}
    (h : ∀ n, src.tail? n.point = some (ds ++ rest) →
      (f n).1 = true ∧ (f n).2.point = n.point + byteLength ds) :
    Leaves src (own f) (ds ++ rest) (some rest) := by
  intro b ok b' hb hrun
  obtain ⟨hok, rfl⟩ := Prod.mk.inj (Option.some.inj hrun)
  obtain ⟨htrue, hpoint⟩ := h b.label hb
  refine ⟨hok.symm.trans htrue, fun ds' hds' => ?_⟩
  cases hds'
  show src.tail? (f b.label).2.point = some rest
  rw [hpoint]
  exact Source.tail?_add hb

theorem leaves_own_none {f : Terminal}
    (h : ∀ n, src.tail? n.point = some cs → (f n).1 = false) : Leaves src (own f) cs none := by
  intro b ok b' hb hrun
  obtain ⟨hok, rfl⟩ := Prod.mk.inj (Option.some.inj hrun)
  exact ⟨hok.symm.trans (h b.label hb), fun ds hds => nomatch hds⟩

theorem leaves_sequence_nil : Leaves src (sequence []) cs (some cs) := by
  intro b ok b' hb hrun
  cases hrun
  exact ⟨rfl, fun ds hds => hb.trans hds⟩

theorem leaves_sequence_cons (hg : Leaves src g cs (some ds))
    (hgs : Leaves src (sequence gs) ds r) : Leaves src (sequence (g :: gs)) cs r := by
  intro b ok b' hb hrun
  obtain ⟨b₂, hall, hb'⟩ := exists_of_sequence hrun
  obtain ⟨-, hfirst⟩ | ⟨b₁, hfirst, hrest⟩ := exists_of_all hall
  · cases (hg b false b₂ hb hfirst).1
  · have hb₁ := (hg b true b₁ hb hfirst).2 ds rfl
    have hseq : sequence gs b₁ = some (ok, if ok then b₂ else b₂.moveTo b₁.cursor) := by
      unfold sequence
      rw [hrest]
      cases ok <;> rfl
    obtain ⟨hok, hleft⟩ := hgs b₁ ok _ hb₁ hseq
    refine ⟨hok, fun es hes => ?_⟩
    have htrue : ok = true := by rw [hok, hes]; rfl
    have hleft := hleft es hes
    rw [htrue, if_pos rfl] at hleft
    rw [hb', htrue, if_pos rfl]
    exact hleft

theorem leaves_sequence_fail (hg : Leaves src g cs none) :
    Leaves src (sequence (g :: gs)) cs none := by
  intro b ok b' hb hrun
  obtain ⟨b₂, hall, -⟩ := exists_of_sequence hrun
  obtain ⟨rfl, -⟩ | ⟨b₁, hfirst, -⟩ := exists_of_all hall
  · exact ⟨rfl, fun ds hds => nomatch hds⟩
  · cases (hg b true b₁ hb hfirst).1

theorem leaves_alternation_none (h : ∀ g ∈ gs, Leaves src g cs none) :
    Leaves src (alternation gs) cs none := by
  intro b ok b' hb hrun
  obtain ⟨ts, b₁, htrials, hsettle⟩ := exists_of_alternation hrun
  have htried := (tried_of_trials (P := fun _ => True) (fun _ _ => trivial)
    (fun _ _ _ _ _ _ _ _ => trivial) trivial htrials).2.1
  obtain ⟨t, ht, hmatched, -⟩ | ⟨rfl, -⟩ := exists_of_settle hsettle
  · obtain ⟨g, hg, b₂, b₃, hcursor, -, hrun, -, -⟩ := htried t ht
    have hfalse := (h g hg b₂ t.matched b₃ (hcursor ▸ hb) hrun).1
    rw [hmatched] at hfalse
    cases hfalse
  · exact ⟨rfl, fun ds hds => nomatch hds⟩

/-- An alternation leaves what a candidate leaves if every other candidate leaves the same, fails or
is lighter. -/
theorem leaves_alternation {ctx : Context} {k : Nat} (hbuilds : ∀ g ∈ gs, Builds ctx g) (hg : g ∈ gs)
    (hleaves : Leaves ctx.source g cs (some ds)) (hheavy : Weighs ctx.source (k ≤ ·) g)
    (hrest : ∀ x ∈ gs, Leaves ctx.source x cs (some ds) ∨ Leaves ctx.source x cs none ∨
      Weighs ctx.source (· < k) x) :
    Leaves ctx.source (alternation gs) cs (some ds) := by
  intro b ok b' hb hrun
  obtain ⟨ts, b₁, htrials, hsettle⟩ := exists_of_alternation hrun
  have hsome : (ctx.source.tail? b.cursor).isSome := by
    rw [hb]
    rfl
  obtain ⟨-, hcandidate, htrial⟩ := tried_of_trials (P := fun x => x.branches = b.branches)
    (fun _ h => h) (fun x hx b₂ ok b₃ hcursor hsame hrun => by
      obtain ⟨new, hnew, -⟩ := (hbuilds x hx b₂ ok b₃ (hcursor ▸ hsome) hrun).branches
      have hnew : b₃.branches = b.branches ++ new := hsame ▸ hnew
      show b₃.branches.take b.branches.length = b.branches
      rw [hnew, List.take_left]) rfl htrials
  -- the candidate is among the successes and bounds the weight of the best
  obtain ⟨t, ht, b₂, b₃, hcursor, hsame, hrun, -, hchildren⟩ := htrial g hg
  have hmatched : t.matched = true := (hleaves b₂ t.matched b₃ (hcursor ▸ hb) hrun).1
  obtain ⟨x, hx, rfl⟩ : ∃ x ∈ ranked Sprout.weight 1 ts, x.trial = t :=
    Step.exists_ranked ht hmatched
  rw [hmatched] at hrun
  have hbound := hheavy b₂ b₃ (hcursor ▸ hsome) hrun
  rw [hsame, ← hchildren, ← Step.weight_of_ranked hx] at hbound
  obtain ⟨best, hbest⟩ := Option.isSome_iff_exists.1 (Step.heaviest_isSome hx)
  have hle := Step.le_heaviest hbest x hx
  have hmem := Step.mem_of_heaviest hbest
  obtain ⟨htrial, hwon⟩ := Step.mem_of_ranked hmem
  obtain ⟨y, hy, b₄, b₅, hcursor', hsame', hrun', hpoint, hchildren'⟩ :=
    hcandidate best.trial htrial
  rw [hwon] at hrun'
  unfold settle at hsettle
  rw [hbest] at hsettle
  cases hsettle
  refine ⟨rfl, fun ds' hds' => ?_⟩
  cases hds'
  show ctx.source.tail? best.trial.point = some ds
  rw [hpoint]
  obtain hleft | hfailed | hlight := hrest y hy
  · exact (hleft b₄ true b₅ (hcursor' ▸ hb) hrun').2 ds rfl
  · cases (hfailed b₄ true b₅ (hcursor' ▸ hb) hrun').1
  · have hlt := hlight b₄ b₅ (hcursor' ▸ hsome) hrun'
    rw [hsame', ← hchildren', ← Step.weight_of_ranked hmem] at hlt
    omega

theorem leaves_call {ctx : Context} {grow : Growth} {c : Call}
    (h : ∀ start ok child, ctx.source.tail? start = some cs →
      grow (seed ctx c start) = some (ok, child) →
        ok = r.isSome ∧ ∀ ds, r = some ds → ctx.source.tail? child.cursor = some ds) :
    Leaves ctx.source (call ctx grow c) cs r := by
  intro b ok b' hb hrun
  obtain ⟨child, hgrow, rfl⟩ := exists_of_call hrun
  obtain ⟨hok, hleft⟩ := h b.cursor ok child hb hgrow
  refine ⟨hok, fun ds hds => ?_⟩
  have htrue : ok = true := by
    rw [hok, hds]
    rfl
  rw [if_pos htrue]
  exact hleft ds hds

/-- Enough turns leave `ds` of `cs`. -/
def TurnsLeave (src : Source) (g : Growth) (cs ds : List Char) : Prop :=
  ∀ fuel count b count' b', src.tail? b.cursor = some cs → byteLength cs < fuel →
    turns g fuel count b = some (count', b') → src.tail? b'.cursor = some ds

/-- A repetition ends where its body fails, and takes the failed turn back. -/
theorem turnsLeave_stop (hg : Leaves src g cs none) : TurnsLeave src g cs cs := by
  intro fuel count b count' b' hb hfuel hrun
  cases fuel with
  | zero => cases hfuel
  | succ fuel =>
    obtain ⟨matched, b₁, hturn, ⟨rfl, -, -⟩ | ⟨-, rfl⟩⟩ := exists_of_turns hrun
    · cases (hg b true b₁ hb hturn).1
    · exact hb

theorem turnsLeave_turn {es : List Char} (hg : Leaves src g (ds ++ cs) (some cs)) (hds : ds ≠ [])
    (hrest : TurnsLeave src g cs es) : TurnsLeave src g (ds ++ cs) es := by
  intro fuel count b count' b' hb hfuel hrun
  cases fuel with
  | zero => cases hfuel
  | succ fuel =>
    obtain ⟨matched, b₁, hturn, hrun⟩ := exists_of_turns hrun
    obtain ⟨hmatched, hleft⟩ := hg b matched b₁ hb hturn
    have hmatched : matched = true := hmatched
    have hb₁ := hleft cs rfl
    have hpos : 0 < byteLength ds := by
      obtain ⟨c, ds, rfl⟩ := List.exists_cons_of_ne_nil hds
      have hc := c.utf8Size_pos
      rw [Text.byteLength_cons]
      omega
    have hsize := Source.size_of_tail? hb
    have hsize₁ := Source.size_of_tail? hb₁
    rw [Text.byteLength_append] at hsize hfuel
    have hlt : b.cursor < b₁.cursor := by omega
    obtain ⟨-, -, hrun⟩ | ⟨hnot, -⟩ := hrun
    · exact hrest fuel (count + 1) b₁ count' b' hb₁ (by omega) hrun
    · exact absurd ⟨hmatched, hlt⟩ hnot

end Growth

namespace Expr

/-- At the text `cs` the body matches and leaves a text, or it does not match if there is none,
however deeply rules may be nested. -/
def Leaves (ctx : Context) (e : Expr) (cs : List Char) (r : Option (List Char)) : Prop :=
  ∀ left, Growth.Leaves ctx.source (e.growth ctx (ctx.grow left)) cs r

variable {ctx : Context} {e body : Expr} {es : List Expr} {name : String} {k : ByteClass}
  {cs ds rest : List Char} {r : Option (List Char)}

theorem Leaves.call (h : body.Leaves ctx cs r) {c : Call} (hrule : ctx.rules.rule? c.rule = some body)
    (left : Nat) : Growth.Leaves ctx.source (Growth.call ctx (ctx.grow left) c) cs r := by
  apply Growth.leaves_call
  intro start ok child hstart hgrow
  obtain ⟨below, b, rfl, hrun, rfl⟩ := Context.exists_of_grow hrule hgrow
  exact h below (Growth.seed ctx c start) ok b hstart hrun

theorem leaves_ref (hrule : ctx.rules.rule? name = some body) (h : body.Leaves ctx cs r) :
    (Expr.ref name).Leaves ctx cs r :=
  h.call (c := .ref name) hrule

theorem leaves_named (caption : String) (hrule : ctx.rules.rule? name = some body)
    (h : body.Leaves ctx cs r) : (Expr.named name caption).Leaves ctx cs r :=
  h.call (c := .named name caption) hrule

theorem leaves_lit (hrule : ctx.rules.rule? literalName = some .attached) {t : String}
    (ht : t ≠ "") : (Expr.lit t).Leaves ctx (t.toList ++ rest) (some rest) := by
  intro left
  apply Growth.leaves_call
  intro start ok child hstart hgrow
  obtain ⟨below, b, rfl, hrun, rfl⟩ := Context.exists_of_grow hrule hgrow
  obtain ⟨hok, rfl⟩ := Prod.mk.inj (Option.some.inj hrun)
  have hpre : t.toList.isPrefixOf (t.toList ++ rest) = true :=
    List.isPrefixOf_iff_prefix.2 (List.prefix_append _ _)
  have heq := Terminal.attached_eq (n := (Growth.seed ctx (.lit t) start).label) ht rfl hstart
  rw [hpre, if_pos rfl] at heq
  rw [heq] at hok
  refine ⟨hok.symm, fun ds hds => ?_⟩
  cases hds
  show ctx.source.tail? (Terminal.attached ctx.source _).2.point = some rest
  rw [heq]
  exact Source.tail?_add hstart

theorem leaves_lit_none (hrule : ctx.rules.rule? literalName = some .attached) {t : String}
    (ht : t ≠ "") (hcs : ¬ t.toList <+: cs) : (Expr.lit t).Leaves ctx cs none := by
  intro left
  apply Growth.leaves_call
  intro start ok child hstart hgrow
  obtain ⟨below, b, rfl, hrun, rfl⟩ := Context.exists_of_grow hrule hgrow
  obtain ⟨hok, rfl⟩ := Prod.mk.inj (Option.some.inj hrun)
  have hpre : t.toList.isPrefixOf cs = false :=
    Bool.eq_false_iff.2 fun h => hcs (List.isPrefixOf_iff_prefix.1 h)
  have heq := Terminal.attached_eq (n := (Growth.seed ctx (.lit t) start).label) ht rfl hstart
  rw [hpre, if_neg Bool.false_ne_true] at heq
  rw [heq] at hok
  exact ⟨hok.symm, fun ds hds => nomatch hds⟩

theorem leaves_seq_nil : (Expr.seq []).Leaves ctx cs (some cs) := fun _ =>
  Growth.leaves_sequence_nil

theorem leaves_seq_cons (he : e.Leaves ctx cs (some ds)) (hes : (Expr.seq es).Leaves ctx ds r) :
    (Expr.seq (e :: es)).Leaves ctx cs r := fun left =>
  Growth.leaves_sequence_cons (he left) (hes left)

theorem leaves_seq_fail (he : e.Leaves ctx cs none) : (Expr.seq (e :: es)).Leaves ctx cs none :=
  fun left => Growth.leaves_sequence_fail (he left)

theorem leaves_alt_none (h : ∀ e ∈ es, e.Leaves ctx cs none) :
    (Expr.alt es).Leaves ctx cs none := by
  intro left
  exact Growth.leaves_alternation_none (forall_mem_growths fun e he => h e he left)

/-- The heaviest candidate among those that match something else. -/
theorem leaves_alt {least : Nat} (hrules : ctx.rules.Lexical) (hes : ∀ e ∈ es, e.Composite)
    (he : e ∈ es) (hleaves : e.Leaves ctx cs (some ds)) (hheavy : e.Weighs ctx (least ≤ ·))
    (hrest : ∀ x ∈ es, x.Leaves ctx cs (some ds) ∨ x.Leaves ctx cs none ∨
      x.Weighs ctx (· < least)) : (Expr.alt es).Leaves ctx cs (some ds) := by
  intro left
  have hyields := Context.yields_grow hrules left
  have hmem : e.growth ctx (ctx.grow left) ∈ growths ctx (ctx.grow left) es := by
    rw [growths_eq]
    exact List.mem_map_of_mem he
  have hbuilds : ∀ g ∈ growths ctx (ctx.grow left) es, Growth.Builds ctx g :=
    forall_mem_growths fun x hx => (hes x hx).builds hyields
  apply Growth.leaves_alternation hbuilds hmem (hleaves left) (hheavy left)
  apply forall_mem_growths
  intro x hx
  obtain hleft | hfailed | hlight := hrest x hx
  · exact .inl (hleft left)
  · exact .inr (.inl (hfailed left))
  · exact .inr (.inr (hlight left))

theorem leaves_alt_only (hrules : ctx.rules.Lexical) (hes : ∀ e ∈ es, e.Composite) (he : e ∈ es)
    (hleaves : e.Leaves ctx cs (some ds)) (hrest : ∀ x ∈ es, x ≠ e → x.Leaves ctx cs none) :
    (Expr.alt es).Leaves ctx cs (some ds) := by
  apply leaves_alt hrules hes he hleaves e.weighs_nonneg
  intro x hx
  by_cases heq : x = e
  · exact .inl (heq ▸ hleaves)
  · exact .inr (.inl (hrest x hx heq))

/-- A repetition whose body reads one of the pieces after the other and then fails. -/
theorem leaves_many {pieces : List (List Char)}
    (hpieces : ∀ as x bs, pieces = as ++ x :: bs →
      x ≠ [] ∧ e.Leaves ctx (x ++ (bs.flatten ++ rest)) (some (bs.flatten ++ rest)))
    (hstop : e.Leaves ctx rest none) :
    (Expr.many e).Leaves ctx (pieces.flatten ++ rest) (some rest) := by
  intro left
  have hturns : Growth.TurnsLeave ctx.source (e.growth ctx (ctx.grow left))
      (pieces.flatten ++ rest) rest := by
    induction pieces with
    | nil => exact Growth.turnsLeave_stop (hstop left)
    | cons x pieces ih =>
      obtain ⟨hx, hleaves⟩ := hpieces [] x pieces rfl
      rw [List.flatten_cons, List.append_assoc]
      apply Growth.turnsLeave_turn (hleaves left) hx
      exact ih fun as y bs h => hpieces (x :: as) y bs (by rw [h, List.cons_append])
  intro b ok b' hb hrun
  obtain ⟨rfl, count, hiterate⟩ := exists_of_many hrun
  have hsize := Source.size_of_tail? hb
  have hleft := hturns _ 0 b count b' hb (by omega) hiterate
  exact ⟨rfl, fun ds hds => Option.some.inj hds ▸ hleft⟩

theorem leaves_pattern {p : Text.Pattern} (h : p.Reads [] ds rest) :
    (Expr.pattern p).Leaves ctx (ds ++ rest) (some rest) := by
  intro left
  apply Growth.leaves_own
  intro n hn
  have heq : Terminal.pattern ctx.source p n = (true, Terminal.take ctx.source (byteLength ds) n) := by
    unfold Terminal.pattern
    rw [Terminal.takeRead_eq hn, Text.Pattern.match?_of_reads h]
  rw [heq]
  exact ⟨rfl, rfl⟩

theorem leaves_pattern_none {p : Text.Pattern} (h : p.Rejects [] cs) :
    (Expr.pattern p).Leaves ctx cs none := by
  intro left
  apply Growth.leaves_own_none
  intro n hn
  unfold Terminal.pattern
  rw [Terminal.takeRead_eq hn, Text.Pattern.match?_of_rejects h]

theorem leaves_bytes (hk : k.Ascii) (hds : ∀ c ∈ ds, k.holds c = true)
    (hrest : rest.head?.any k.holds = false) :
    (Expr.bytes k 0).Leaves ctx (ds ++ rest) (some rest) := by
  intro left
  apply Growth.leaves_own
  intro n hn
  have hrun : (ds ++ rest).takeWhile k.holds = ds := by
    rw [List.takeWhile_append_of_pos hds]
    cases rest with
    | nil => simp
    | cons c rest =>
      have hc : k.holds c = false := hrest
      simp [hc]
  rw [Terminal.bytes_eq hk 0 hn, hrun]
  simp [Terminal.take]

theorem leaves_byte (hk : k.Ascii) {c : Char} (hc : k.holds c = true) :
    (Expr.byte k).Leaves ctx (c :: rest) (some rest) := by
  intro left
  show Growth.Leaves ctx.source _ ([c] ++ rest) (some rest)
  apply Growth.leaves_own
  intro n hn
  rw [Terminal.byte_of_holds hk hc hn]
  exact ⟨rfl, rfl⟩

theorem leaves_byte_none (hk : k.Ascii) (h : cs.head?.any k.holds = false) :
    (Expr.byte k).Leaves ctx cs none := by
  intro left
  apply Growth.leaves_own_none
  intro n hn
  rw [Terminal.byte_of_not_holds hk h hn]

theorem leaves_const_true : (Expr.const true).Leaves ctx cs (some cs) := fun _ =>
  Growth.leaves_const_true

theorem leaves_atEnd : Expr.atEnd.Leaves ctx [] (some []) := by
  intro left
  show Growth.Leaves ctx.source _ ([] ++ []) (some [])
  apply Growth.leaves_own
  intro n hn
  have hsize := Source.size_of_tail? hn
  refine ⟨decide_eq_true ?_, rfl⟩
  exact Nat.le_of_eq hsize

end Expr

end RankedGrammar
