import RankedGrammar.Proofs.Match.Simulation
import RankedGrammar.Proofs.Match.Terminal
import RankedGrammar.Proofs.Rule.Index
import RankedGrammar.Rule.Language

/-!
Lexemes. Where every rule either takes text by itself or only calls other rules, a node that matched
holds exactly the text that its span covers, and the spans of its children follow each other.
-/
namespace RankedGrammar
open Text (byteLength)

/-- The body of a rule that takes text by itself and calls no other rule. -/
inductive Expr.Leaf : Expr → Prop where
  | byte {k : ByteClass} (hk : k.Ascii) : Leaf (.byte k)
  | text (t : String) : Leaf (.text t)
  | attached : Leaf .attached
  | pattern (p : Text.Pattern) : Leaf (.pattern p)
  | bytes {k : ByteClass} (hk : k.Whole) (least : Nat) : Leaf (.bytes k least)
  | look (k : ByteClass) (offset : Nat) : Leaf (.look k offset)
  | atEnd : Leaf .atEnd
  | const (ok : Bool) : Leaf (.const ok)
  | all {es : List Expr} (h : ∀ e ∈ es, Leaf e) : Leaf (.all es)
  | any {es : List Expr} (h : ∀ e ∈ es, Leaf e) : Leaf (.any es)
  | not {e : Expr} (h : Leaf e) : Leaf (.not e)
  | ifElse {e yes no : Expr} (h : Leaf e) (hyes : Leaf yes) (hno : Leaf no) :
      Leaf (.ifElse e yes no)

/-- The body of a rule that calls other rules and takes no text by itself. -/
inductive Expr.Composite : Expr → Prop where
  | ref (rule : String) : Composite (.ref rule)
  | named (rule caption : String) : Composite (.named rule caption)
  | lit (t : String) : Composite (.lit t)
  | seq {es : List Expr} (h : ∀ e ∈ es, Composite e) : Composite (.seq es)
  | alt {es : List Expr} (h : ∀ e ∈ es, Composite e) : Composite (.alt es)
  | many {e : Expr} (h : Composite e) : Composite (.many e)
  | tally {e : Expr} (h : Composite e) (least : Nat) : Composite (.tally e least)
  | counted {e : Expr} (h : Composite e) (test : Nat → Bool) : Composite (.counted e test)
  | all {es : List Expr} (h : ∀ e ∈ es, Composite e) : Composite (.all es)
  | look (k : ByteClass) (offset : Nat) : Composite (.look k offset)
  | atEnd : Composite .atEnd
  | const (ok : Bool) : Composite (.const ok)

/-- Every rule is of one of the two kinds. -/
def RuleIndex.Lexical (rules : RuleIndex Expr) : Prop :=
  ∀ name body, rules.rule? name = some body → body.Leaf ∨ body.Composite

namespace Sprout

def value (b : Sprout) : String := String.join (b.preorder.filterMap (·.literal))

def stop (b : Sprout) : Nat := b.preorder.foldl (fun furthest n => max furthest n.point) 0

/-- The spans of the branches follow each other from `start` to `stop`. -/
def Tiles (start stop : Nat) : List Sprout → Prop
  | [] => stop = start
  | b :: bs => b.label.start = start ∧ Tiles b.cursor stop bs

/-- The sprout matched and holds the text that its span covers, and so do all its branches, which
tile it if the rule calls others. -/
inductive Exact (ctx : Context) : Sprout → Prop where
  | mk {n : Node} {bs : List Sprout}
      (matched : n.matched = true)
      (value : ctx.source.Spells n.start (Sprout.value (.mk n bs)).toList n.point)
      (stop : Sprout.stop (.mk n bs) = n.point)
      (tiles : ∀ body, ctx.rules.rule? n.name = some body → body.Composite →
        Tiles n.start n.point bs)
      (below : ∀ b ∈ bs, Exact ctx b) : Exact ctx (.mk n bs)

variable {ctx : Context} {b b' : Sprout} {bs cs : List Sprout} {start mid stop : Nat}

theorem Tiles.append (h : Tiles start mid bs) (h' : Tiles mid stop cs) :
    Tiles start stop (bs ++ cs) := by
  induction bs generalizing start with
  | nil =>
    cases h
    exact h'
  | cons b bs ih => exact ⟨h.1, ih h.2⟩

theorem value_mk (n : Node) (bs : List Sprout) :
    (value (.mk n bs)).toList =
      (n.literal.getD "").toList ++ bs.flatMap fun b => b.value.toList := by
  unfold value
  rw [Branch.preorder_mk, List.filterMap_cons]
  have hbelow : (String.join ((bs.flatMap Branch.preorder).filterMap (·.literal))).toList =
      bs.flatMap fun b => (String.join (b.preorder.filterMap (·.literal))).toList := by
    rw [String.toList_join, List.filterMap_flatMap, List.flatMap_assoc]
    refine List.flatMap_congr fun b _ => ?_
    rw [String.toList_join]
  cases n.literal with
  | none => exact hbelow
  | some t =>
    dsimp only
    rw [String.join_cons, String.toList_append, hbelow]
    rfl

theorem foldl_max_le_iff {ns : List Node} {furthest k : Nat} :
    ns.foldl (fun furthest n => max furthest n.point) furthest ≤ k ↔
      furthest ≤ k ∧ ∀ n ∈ ns, n.point ≤ k := by
  induction ns generalizing furthest with
  | nil => simp
  | cons n ns ih =>
    rw [List.foldl_cons, ih, List.forall_mem_cons, Nat.max_le, and_assoc]

theorem stop_le_iff {k : Nat} : b.stop ≤ k ↔ ∀ n ∈ b.preorder, n.point ≤ k := by
  rw [Sprout.stop, foldl_max_le_iff]
  simp

/-- The furthest cursor is that of the node if no branch goes beyond it. -/
theorem stop_mk {n : Node} (h : ∀ b ∈ bs, b.stop ≤ n.point) :
    Sprout.stop (.mk n bs) = n.point := by
  have hmem : n ∈ (Branch.mk n bs).preorder := (Branch.mk n bs).label_mem_preorder
  refine Nat.le_antisymm (stop_le_iff.2 fun m hm => ?_) (stop_le_iff.1 (Nat.le_refl _) n hmem)
  rw [Branch.preorder_mk] at hm
  cases List.mem_cons.1 hm with
  | inl heq => exact Nat.le_of_eq (congrArg Node.point heq)
  | inr hm =>
    obtain ⟨b, hb, hm⟩ := List.mem_flatMap.1 hm
    exact stop_le_iff.1 (h b hb) m hm

namespace Exact

theorem matched (h : b.Exact ctx) : b.label.matched = true := by
  cases h with
  | mk matched _ _ _ _ => exact matched

theorem spells (h : b.Exact ctx) : ctx.source.Spells b.label.start b.value.toList b.cursor := by
  cases h with
  | mk _ value _ _ _ => exact value

theorem stop_eq (h : b.Exact ctx) : b.stop = b.cursor := by
  cases h with
  | mk _ _ stop _ _ => exact stop

theorem forall_branches {n : Node} (h : Exact ctx (.mk n bs)) : ∀ b ∈ bs, Exact ctx b := by
  cases h with
  | mk _ _ _ _ below => exact below

end Exact

theorem Tiles.spells (h : Tiles start stop bs) (hbs : ∀ b ∈ bs, Exact ctx b)
    (hstart : (ctx.source.tail? start).isSome) :
    ctx.source.Spells start (bs.flatMap fun b => b.value.toList) stop := by
  induction bs generalizing start with
  | nil =>
    cases h
    exact .nil hstart
  | cons b bs ih =>
    obtain ⟨rfl, hrest⟩ := h
    have hb := (hbs b List.mem_cons_self).spells
    exact hb.append (ih hrest (fun c hc => hbs c (List.mem_cons_of_mem b hc)) hb.tail?_stop)

theorem Tiles.cursor_le (h : Tiles start stop bs) (hbs : ∀ b ∈ bs, Exact ctx b) :
    start ≤ stop ∧ ∀ b ∈ bs, b.cursor ≤ stop := by
  induction bs generalizing start with
  | nil =>
    cases h
    exact ⟨Nat.le_refl _, by simp⟩
  | cons b bs ih =>
    obtain ⟨rfl, hrest⟩ := h
    have hb := (hbs b List.mem_cons_self).spells.le
    obtain ⟨hle, hcursors⟩ := ih hrest fun c hc => hbs c (List.mem_cons_of_mem b hc)
    refine ⟨Nat.le_trans hb hle, ?_⟩
    rw [List.forall_mem_cons]
    exact ⟨hle, hcursors⟩

theorem exact_of_tiles {n : Node} (hmatched : n.matched = true) (hliteral : n.literal = none)
    (h : Tiles n.start n.point bs) (hbs : ∀ b ∈ bs, Exact ctx b)
    (hstart : (ctx.source.tail? n.start).isSome) :
    Exact ctx (.mk n bs) := by
  obtain ⟨-, hcursors⟩ := h.cursor_le hbs
  constructor
  · exact hmatched
  · rw [value_mk, hliteral]
    exact h.spells hbs hstart
  · refine stop_mk fun b hb => ?_
    rw [(hbs b hb).stop_eq]
    exact hcursors b hb
  · exact fun _ _ _ => h
  · exact hbs

theorem exact_of_taken {n : Node} (hmatched : n.matched = true) (h : n.Taken ctx.source)
    (hbody : ∀ body, ctx.rules.rule? n.name = some body → ¬ body.Composite) :
    Exact ctx (.mk n []) := by
  constructor
  · exact hmatched
  · rw [value_mk, List.flatMap_nil, List.append_nil]
    exact h
  · exact stop_mk (by simp)
  · exact fun body hrule hcomposite => absurd hcomposite (hbody body hrule)
  · simp

end Sprout

theorem Sprout.origin_moveTo (b : Sprout) (point : Nat) :
    b.label.SameOrigin (b.moveTo point).label := ⟨rfl, rfl, rfl, rfl, rfl, rfl, rfl⟩

/-- What a composite body makes of a sprout: branches are added, and if it succeeds they cover the
way of the cursor. -/
structure Sprout.Grows (ctx : Context) (ok : Bool) (b b' : Sprout) : Prop where
  origin : b.label.SameOrigin b'.label
  literal : b'.label.literal = b.label.literal
  branches : ∃ new, b'.branches = b.branches ++ new ∧
    (ok = true → Sprout.Tiles b.cursor b'.cursor new ∧ ∀ c ∈ new, Sprout.Exact ctx c)

namespace Sprout.Grows

variable {ctx : Context} {ok : Bool} {b b' b'' : Sprout}

theorem refl (ok : Bool) (b : Sprout) : b.Grows ctx ok b :=
  ⟨.refl _, rfl, [], (List.append_nil _).symm, fun _ => ⟨rfl, by simp⟩⟩

theorem trans (h : b.Grows ctx true b') (h' : b'.Grows ctx ok b'') : b.Grows ctx ok b'' := by
  obtain ⟨new, hnew, htiles⟩ := h.branches
  obtain ⟨new', hnew', htiles'⟩ := h'.branches
  refine ⟨h.origin.trans h'.origin, h'.literal.trans h.literal, new ++ new',
    by rw [hnew', hnew, List.append_assoc], fun hok => ?_⟩
  obtain ⟨hcover, hexact⟩ := htiles rfl
  obtain ⟨hcover', hexact'⟩ := htiles' hok
  refine ⟨hcover.append hcover', fun c hc => ?_⟩
  cases List.mem_append.1 hc with
  | inl hc => exact hexact c hc
  | inr hc => exact hexact' c hc

/-- The cursor of a failure does not matter. -/
theorem fail (h : b.Grows ctx false b') (point : Nat) : b.Grows ctx false (b'.moveTo point) := by
  obtain ⟨new, hnew, -⟩ := h.branches
  exact ⟨h.origin.trans (b'.origin_moveTo point), h.literal, new, hnew, fun hok => nomatch hok⟩

theorem tail?_cursor (h : b.Grows ctx true b') (hb : (ctx.source.tail? b.cursor).isSome) :
    (ctx.source.tail? b'.cursor).isSome := by
  obtain ⟨new, -, htiles⟩ := h.branches
  obtain ⟨hcover, hexact⟩ := htiles rfl
  exact (hcover.spells hexact hb).tail?_stop

end Sprout.Grows

namespace Growth
open Step (Trial ranked heaviest)

variable {ctx : Context} {g : Growth} {gs : List Growth} {ok : Bool} {b b' : Sprout}

/-- The growth of a composite body. -/
def Builds (ctx : Context) (g : Growth) : Prop :=
  ∀ b ok b', (ctx.source.tail? b.cursor).isSome → g b = some (ok, b') → b.Grows ctx ok b'

theorem builds_const (ok : Bool) : Builds ctx (const ok) := by
  intro b ok' b' _ h
  cases h
  exact .refl ok b

theorem builds_own {f : Terminal} (hf : ∀ n, (f n).2 = n) : Builds ctx (own f) := by
  intro b ok b' _ h
  cases h
  rw [hf, Branch.mk_label_branches]
  exact .refl _ b

theorem builds_all (h : ∀ g ∈ gs, Builds ctx g) : Builds ctx (all gs) := by
  induction gs with
  | nil =>
    intro b ok b' _ hrun
    cases hrun
    exact .refl true b
  | cons g gs ih =>
    intro b ok b' hb hrun
    have hg := h g List.mem_cons_self
    have hgs := ih fun x hx => h x (List.mem_cons_of_mem g hx)
    obtain ⟨rfl, hfirst⟩ | ⟨b₁, hfirst, hrest⟩ := exists_of_all hrun
    · exact hg b false b' hb hfirst
    · have hgrows := hg b true b₁ hb hfirst
      exact hgrows.trans (hgs b₁ ok b' (hgrows.tail?_cursor hb) hrest)

theorem builds_sequence (h : ∀ g ∈ gs, Builds ctx g) : Builds ctx (sequence gs) := by
  intro b ok b' hb hrun
  obtain ⟨b₁, hall, hb'⟩ := exists_of_sequence hrun
  have hgrows := builds_all h b ok b₁ hb hall
  cases ok with
  | true =>
    rw [if_pos rfl] at hb'
    exact hb' ▸ hgrows
  | false =>
    rw [if_neg Bool.false_ne_true] at hb'
    exact hb' ▸ hgrows.fail b.cursor

/-- The trials of an alternation leave the sprout as it was, but for the cursor and what is
expected, and a success covers the way of its cursor. -/
theorem trials_spec (h : ∀ g ∈ gs, Builds ctx g) {point base : Nat} {ts : List (Trial Sprout)}
    (hpoint : (ctx.source.tail? point).isSome) (hbase : base = b.branches.length)
    (hrun : trials point base gs b = some (ts, b')) :
    b.label.SameOrigin b'.label ∧ b'.label.literal = b.label.literal ∧
      b'.branches = b.branches ∧ ∀ t ∈ ts, t.matched = true →
        Sprout.Tiles point t.point t.children ∧ ∀ c ∈ t.children, Sprout.Exact ctx c := by
  induction gs generalizing b ts with
  | nil =>
    cases hrun
    exact ⟨.refl _, rfl, rfl, by simp⟩
  | cons g gs ih =>
    rw [trials] at hrun
    cases hfirst : g (b.moveTo point) with
    | none =>
      rw [hfirst] at hrun
      cases hrun
    | some grown =>
      obtain ⟨matched, b₁⟩ := grown
      have hgrows := h g List.mem_cons_self (b.moveTo point) matched b₁ hpoint hfirst
      obtain ⟨new, hnew, htiles⟩ := hgrows.branches
      have hnew : b₁.branches = b.branches ++ new := hnew
      have htake : b₁.branches.take base = b.branches := by
        rw [hnew, hbase, List.take_left]
      have hdrop : b₁.branches.drop base = new := by
        rw [hnew, hbase, List.drop_left]
      rw [hfirst] at hrun
      dsimp only at hrun
      rw [htake, hdrop] at hrun
      cases hrest : trials point base gs (.mk b₁.label b.branches) with
      | none =>
        rw [hrest] at hrun
        cases hrun
      | some grown =>
        obtain ⟨rest, b₂⟩ := grown
        rw [hrest] at hrun
        cases hrun
        have hbase' : base = (Branch.mk b₁.label b.branches).branches.length := hbase
        obtain ⟨horigin, hliteral, hbranches, hts⟩ :=
          ih (fun x hx => h x (List.mem_cons_of_mem g hx)) hbase' hrest
        have hmoved := (b.origin_moveTo point).trans hgrows.origin
        refine ⟨hmoved.trans horigin, hliteral.trans hgrows.literal, hbranches, ?_⟩
        rw [List.forall_mem_cons]
        exact ⟨htiles, hts⟩

theorem builds_alternation (h : ∀ g ∈ gs, Builds ctx g) : Builds ctx (alternation gs) := by
  intro b ok b' hb hrun
  obtain ⟨ts, b₁, htrials, hsettle⟩ := exists_of_alternation hrun
  obtain ⟨horigin, hliteral, hbranches, hts⟩ := trials_spec h hb rfl htrials
  have hmoved : ∀ {n : Node}, b₁.label.SameOrigin n → b.label.SameOrigin n := horigin.trans
  obtain ⟨t, ht, hmatched, rfl, rfl⟩ | ⟨rfl, rfl⟩ := exists_of_settle hsettle
  · refine ⟨hmoved ⟨rfl, rfl, rfl, rfl, rfl, rfl, rfl⟩, hliteral, t.children, ?_,
      fun _ => hts t ht hmatched⟩
    rw [Branch.branches_mk, hbranches]
  · refine ⟨hmoved ⟨rfl, rfl, rfl, rfl, rfl, rfl, rfl⟩, hliteral, [], ?_, fun hok => nomatch hok⟩
    rw [List.append_nil]
    exact hbranches

/-- Turns cover the way of the cursor, the last one being taken back. -/
theorem turns_spec (h : Builds ctx g) {fuel count count' : Nat}
    (hb : (ctx.source.tail? b.cursor).isSome) (hrun : turns g fuel count b = some (count', b')) :
    b.Grows ctx true b' := by
  induction fuel generalizing count b with
  | zero =>
    cases hrun
    exact .refl true _
  | succ fuel ih =>
    obtain ⟨matched, b₁, hturn, hrun⟩ := exists_of_turns hrun
    have hgrows := h b matched b₁ hb hturn
    obtain ⟨rfl, -, hrun⟩ | ⟨-, rfl⟩ := hrun
    · exact hgrows.trans (ih (hgrows.tail?_cursor hb) hrun)
    · obtain ⟨new, hnew, -⟩ := hgrows.branches
      refine ⟨hgrows.origin.trans ⟨rfl, rfl, rfl, rfl, rfl, rfl, rfl⟩, hgrows.literal, [], ?_,
        fun _ => ⟨rfl, by simp⟩⟩
      show b₁.branches.take b.branches.length = b.branches ++ []
      rw [hnew, List.take_left, List.append_nil]

theorem builds_counted (h : Builds ctx g) (test : Nat → Bool) :
    Builds ctx (counted ctx.source test g) := by
  intro b ok b' hb hrun
  obtain ⟨count, -, hturns⟩ := exists_of_counted hrun
  have hgrows := turns_spec h hb hturns
  obtain ⟨new, hnew, htiles⟩ := hgrows.branches
  exact ⟨hgrows.origin, hgrows.literal, new, hnew, fun _ => htiles rfl⟩

/-- Whatever a rule grows from a seed between two characters is exact if the rule matches. -/
def Yields (ctx : Context) (grow : Growth) : Prop :=
  ∀ c start child, (ctx.source.tail? start).isSome →
    grow (seed ctx c start) = some (true, child) → Sprout.Exact ctx child ∧ child.label.start = start

theorem builds_call {grow : Growth} (h : Yields ctx grow) (c : Call) :
    Builds ctx (call ctx grow c) := by
  intro b ok b' hb hrun
  obtain ⟨child, hgrow, rfl⟩ := exists_of_call hrun
  cases ok with
  | true =>
    obtain ⟨hexact, hstart⟩ := h c b.cursor child hb hgrow
    refine ⟨⟨rfl, rfl, rfl, rfl, rfl, rfl, rfl⟩, rfl, [child], rfl, fun _ => ⟨⟨hstart, rfl⟩, ?_⟩⟩
    intro d hd
    exact List.mem_singleton.1 hd ▸ hexact
  | false =>
    have hliteral : (b.label.missed ctx.source c).literal = b.label.literal := by
      unfold Node.missed
      split
      · split <;> rfl
      · rfl
    obtain ⟨horigin, -⟩ := Node.keeps_missed ctx.source c b.label
    exact ⟨horigin, hliteral, [child], rfl, fun hok => nomatch hok⟩

end Growth

theorem Expr.Composite.builds {ctx : Context} {grow : Growth} (h : Growth.Yields ctx grow) {e : Expr}
    (he : e.Composite) : Growth.Builds ctx (e.growth ctx grow) := by
  induction he with
  | ref rule => exact Growth.builds_call h (.ref rule)
  | named rule caption => exact Growth.builds_call h (.named rule caption)
  | lit t => exact Growth.builds_call h (.lit t)
  | seq _ ih => exact Growth.builds_sequence (Expr.forall_mem_growths ih)
  | alt _ ih => exact Growth.builds_alternation (Expr.forall_mem_growths ih)
  | all _ ih => exact Growth.builds_all (Expr.forall_mem_growths ih)
  | look k offset => exact Growth.builds_own fun _ => rfl
  | atEnd => exact Growth.builds_own fun _ => rfl
  | const ok => exact Growth.builds_const ok
  | many _ ih => exact Growth.builds_counted ih _
  | tally _ least ih => exact Growth.builds_counted ih _
  | counted _ test ih => exact Growth.builds_counted ih test

namespace Growth

variable {ctx : Context} {g : Growth} {gs : List Growth}

/-- The growth of a leaf: text is taken and recorded, whether it succeeds or not. -/
def Fills (ctx : Context) (g : Growth) : Prop :=
  ∀ b ok b', b.branches = [] → b.label.Taken ctx.source → g b = some (ok, b') →
    b'.branches = [] ∧ b'.label.Taken ctx.source ∧ b.label.SameOrigin b'.label

theorem fills_own {f : Terminal} (hkeeps : f.Keeps) (htakes : f.Takes ctx.source) :
    Fills ctx (own f) := by
  intro b ok b' hb htaken h
  cases h
  obtain ⟨horigin, -⟩ := hkeeps b.label
  exact ⟨hb, htakes _ htaken, horigin⟩

theorem fills_const (ok : Bool) : Fills ctx (const ok) := by
  intro b ok' b' hb htaken h
  cases h
  exact ⟨hb, htaken, .refl _⟩

/-- Whatever follows, it goes on from a leaf. -/
theorem fills_ifElse {yes no : Growth} (h : Fills ctx g) (hyes : Fills ctx yes)
    (hno : Fills ctx no) : Fills ctx (ifElse g yes no) := by
  intro b ok b' hb htaken hrun
  obtain ⟨b₁, hfirst, hrest⟩ | ⟨b₁, hfirst, hrest⟩ := exists_of_ifElse hrun
  · obtain ⟨hb₁, htaken₁, horigin⟩ := h b true b₁ hb htaken hfirst
    obtain ⟨hb', htaken', horigin'⟩ := hyes b₁ ok b' hb₁ htaken₁ hrest
    exact ⟨hb', htaken', horigin.trans horigin'⟩
  · obtain ⟨hb₁, htaken₁, horigin⟩ := h b false b₁ hb htaken hfirst
    obtain ⟨hb', htaken', horigin'⟩ := hno b₁ ok b' hb₁ htaken₁ hrest
    exact ⟨hb', htaken', horigin.trans horigin'⟩

theorem fills_negate (h : Fills ctx g) : Fills ctx (negate g) := by
  rw [negate_eq]
  exact fills_ifElse h (fills_const false) (fills_const true)

theorem fills_all (h : ∀ g ∈ gs, Fills ctx g) : Fills ctx (all gs) := by
  induction gs with
  | nil => exact fills_const true
  | cons g gs ih =>
    obtain ⟨hg, hgs⟩ := List.forall_mem_cons.1 h
    exact fills_ifElse hg (ih hgs) (fills_const false)

theorem fills_any (h : ∀ g ∈ gs, Fills ctx g) : Fills ctx (any gs) := by
  induction gs with
  | nil => exact fills_const false
  | cons g gs ih =>
    obtain ⟨hg, hgs⟩ := List.forall_mem_cons.1 h
    exact fills_ifElse hg (fills_const true) (ih hgs)

end Growth

theorem Expr.Leaf.fills {ctx : Context} (grow : Growth) {e : Expr} (he : e.Leaf) :
    Growth.Fills ctx (e.growth ctx grow) := by
  induction he with
  | byte hk => exact Growth.fills_own (Terminal.keeps_byte _ _) (Terminal.takes_byte hk)
  | text t => exact Growth.fills_own (Terminal.keeps_takeRead _ _) (Terminal.takes_text t)
  | attached => exact Growth.fills_own (Terminal.keeps_attached _) Terminal.takes_attached
  | pattern p => exact Growth.fills_own (Terminal.keeps_takeRead _ _) (Terminal.takes_pattern p)
  | bytes hk least =>
    exact Growth.fills_own (fun n => Terminal.keeps_take _ _ n) (Terminal.takes_bytes hk least)
  | look k offset => exact Growth.fills_own (Terminal.keeps_rfl fun _ => rfl) fun _ h => h
  | atEnd => exact Growth.fills_own (Terminal.keeps_rfl fun _ => rfl) fun _ h => h
  | const ok => exact Growth.fills_const ok
  | all _ ih => exact Growth.fills_all (Expr.forall_mem_growths ih)
  | any _ ih => exact Growth.fills_any (Expr.forall_mem_growths ih)
  | not _ ih => exact Growth.fills_negate ih
  | ifElse _ _ _ ih ihyes ihno => exact Growth.fills_ifElse ih ihyes ihno

theorem Context.yields_grow {ctx : Context} (h : ctx.rules.Lexical) (left : Nat) :
    Growth.Yields ctx (ctx.grow left) := by
  induction left with
  | zero =>
    intro c start child _ hrun
    cases hrun
  | succ left ih =>
    intro c start child hstart hrun
    cases hrule : ctx.rules.rule? (Growth.seed ctx c start).label.name with
    | none =>
      rw [grow_succ, hrule] at hrun
      cases hrun
    | some body =>
      obtain ⟨below, b, heq, hbody, rfl⟩ := exists_of_grow hrule hrun
      cases heq
      by_cases hcomposite : body.Composite
      · have hgrows := hcomposite.builds ih (Growth.seed ctx c start) true b hstart hbody
        obtain ⟨new, hnew, htiles⟩ := hgrows.branches
        obtain ⟨hcover, hexact⟩ := htiles rfl
        have hnew : b.branches = new := hnew
        rw [hnew]
        refine ⟨Sprout.exact_of_tiles rfl hgrows.literal ?_ hexact ?_, hgrows.origin.start⟩
        · show Sprout.Tiles b.label.start b.label.point new
          rw [hgrows.origin.start]
          exact hcover
        · show (ctx.source.tail? b.label.start).isSome
          rw [hgrows.origin.start]
          exact hstart
      · have hleaf := (h _ body hrule).resolve_right hcomposite
        have hempty : (Growth.seed ctx c start).label.Taken ctx.source := .nil hstart
        obtain ⟨hb, htaken, horigin⟩ := hleaf.fills (ctx.grow left)
          (Growth.seed ctx c start) true b rfl hempty hbody
        rw [hb]
        refine ⟨Sprout.exact_of_taken rfl htaken fun body' hrule' => ?_, horigin.start⟩
        have hrule'' : ctx.rules.rule? b.label.name = some body' := hrule'
        rw [horigin.name, hrule] at hrule''
        cases hrule''
        exact hcomposite

namespace Tree

variable {t : Tree} {ctx : Context}

/-- The spans of the nodes follow each other from `start` to `stop`. -/
def Tiles (t : Tree) (start stop : Nat) : List NodeId → Prop
  | [] => stop = start
  | c :: cs => (t.node c).start = start ∧ t.Tiles (t.node c).point stop cs

namespace WellFormed

theorem value_eq (h : t.WellFormed) (id : Nat) : t.value id = (t.sprout id).value := by
  rw [value, Sprout.value, h.preorder_sprout, List.filterMap_map]
  rfl

theorem stop_eq (h : t.WellFormed) (id : Nat) : t.stop id = (t.sprout id).stop := by
  rw [stop, Sprout.stop, h.preorder_sprout, List.foldl_map]
  rfl

theorem tiles_iff (h : t.WellFormed) (start stop : Nat) (ids : List NodeId) :
    Sprout.Tiles start stop (ids.map t.sprout) ↔ t.Tiles start stop ids := by
  induction ids generalizing start with
  | nil => exact Iff.rfl
  | cons c cs ih =>
    rw [List.map_cons, Sprout.Tiles, Tiles, ih, h.sprout_eq c]
    exact Iff.rfl

theorem exact_of_reaches (h : t.WellFormed) {a d : Nat} (ha : Sprout.Exact ctx (t.sprout a))
    (hd : t.Reaches a d) : Sprout.Exact ctx (t.sprout d) :=
  h.sprout_of_reaches Sprout.Exact.forall_branches ha hd

/-- An exact node goes as far as all below it, and holds the text of its span. -/
theorem text_of_exact (h : t.WellFormed) {id : Nat} (hid : Sprout.Exact ctx (t.sprout id)) :
    t.stop id = (t.node id).point ∧
      ctx.source.slice? (t.node id).start (t.node id).point = some (t.value id) := by
  have hstop := hid.stop_eq
  have hvalue := hid.spells.slice?
  rw [String.ofList_toList] at hvalue
  rw [h.stop_eq, h.value_eq]
  rw [h.sprout_eq] at hstop hvalue ⊢
  exact ⟨hstop, hvalue⟩

end WellFormed

end Tree

namespace Tokens

theorem leaf_rules {e : String × Expr} (he : e ∈ Tokens.rules.entries) : e.2.Leaf := by
  have hmem := Rulebook.mem_ofList he
  simp only [table, List.mem_cons, List.not_mem_nil, or_false] at hmem
  have heol : ∀ e ∈ [Expr.text "\r\n", .byte (.single (ascii '\n'))], e.Leaf := by
    intro e he
    rcases List.mem_pair.1 he with rfl | rfl
    · exact .text _
    · exact .byte (ByteClass.ascii_of_ranges (by decide))
  have hletter : ∀ e ∈ [Expr.byte (.range (ascii 'a') (ascii 'z')),
      .byte (.range (ascii 'A') (ascii 'Z'))], e.Leaf := by
    intro e he
    rcases List.mem_pair.1 he with rfl | rfl
    · exact .byte (ByteClass.ascii_of_ranges (by decide))
    · exact .byte (ByteClass.ascii_of_ranges (by decide))
  rcases hmem with rfl | rfl | rfl | rfl | rfl | rfl | rfl | rfl | rfl | rfl | rfl | rfl | rfl
  · exact .const true
  · exact .attached
  · exact .atEnd
  · exact .any heol
  · exact .bytes (ByteClass.ascii_of_ranges (by decide)).whole 1
  · exact .bytes (ByteClass.ascii_of_ranges (by decide)).whole 0
  · exact .byte (ByteClass.ascii_of_ranges (by decide))
  · exact .any hletter
  all_goals exact .pattern _

end Tokens

namespace Expr.Composite

variable {es : List Expr} {e : Expr}

@[simp] theorem ref_iff (rule : String) : (Expr.ref rule).Composite ↔ True :=
  iff_true_intro (.ref rule)

@[simp] theorem named_iff (rule caption : String) : (Expr.named rule caption).Composite ↔ True :=
  iff_true_intro (.named rule caption)

@[simp] theorem lit_iff (t : String) : (Expr.lit t).Composite ↔ True := iff_true_intro (.lit t)

@[simp] theorem seq_iff : (Expr.seq es).Composite ↔ ∀ e ∈ es, e.Composite := by
  constructor
  · rintro ⟨⟩
    assumption
  · exact .seq

@[simp] theorem alt_iff : (Expr.alt es).Composite ↔ ∀ e ∈ es, e.Composite := by
  constructor
  · rintro ⟨⟩
    assumption
  · exact .alt

@[simp] theorem many_iff : (Expr.many e).Composite ↔ e.Composite := by
  constructor
  · rintro ⟨⟩
    assumption
  · exact .many

end Expr.Composite

theorem Language.lexical_statements : Language.statements.index.Lexical := by
  intro name body hrule
  obtain ⟨e, he, rfl⟩ := RuleIndex.mem_of_rule? hrule
  rcases RuleIndex.mem_overlay he with he | ⟨r, hr, heq⟩
  · rcases RuleIndex.mem_overlay he with he | ⟨r, hr, heq⟩
    · rcases RuleIndex.mem_overlay he with he | ⟨r, hr, heq⟩
      · cases he
      · rw [heq]
        have hmem := Rulebook.mem_ofList hr
        simp only [Language.statementTable, List.mem_cons, List.not_mem_nil, or_false] at hmem
        rcases hmem with rfl | rfl | rfl | rfl | rfl | rfl | rfl | rfl | rfl | rfl | rfl | rfl |
          rfl | rfl
        -- the operators and the end of a statement take a byte, the others call rules
        all_goals
          first
          | refine .inl (.byte (ByteClass.ascii_of_ranges ?_)); decide
          | refine .inr ?_; simp [Expr.opt]
    · exact heq ▸ .inl (Tokens.leaf_rules hr)
  · cases hr

namespace Context

variable {ctx : Context} {rule : String} {p : RawParse}

/-- A run is valid if its root matched: what is kept below a match has matched. -/
theorem grow_valid_of_rawParse (hrules : ctx.rules.Lexical) (h : ctx.rawParse rule = .ok p) :
    ctx.grow ctx.limit (Growth.seed ctx (.ref rule) 0) =
      some (p.valid, p.tree.sprout Tree.root) := by
  have hwf := wellFormed_of_rawParse h
  obtain ⟨ok, hgrow⟩ := grow_of_rawParse h
  have hlabel : ∀ id, (p.tree.sprout id).label.matched = (p.tree.node id).matched := by
    intro id
    rw [hwf.sprout_eq]
    rfl
  have hroot : (p.tree.node Tree.root).matched = ok := by
    rw [← hlabel]
    exact matched_of_grow rfl hgrow
  have hvalid : p.valid = ok := by
    cases ok with
    | false =>
      apply eq_false_of_ne_true
      intro hvalid
      have hmem : Tree.root ∈ p.tree.descendants Tree.root := hwf.mem_descendants.2 .refl
      have hmatched := List.all_eq_true.1 hvalid Tree.root hmem
      rw [hroot] at hmatched
      cases hmatched
    | true =>
      have hexact := (yields_grow hrules ctx.limit (.ref rule) 0 _ ctx.source.tail?_zero hgrow).1
      apply List.all_eq_true.2
      intro id hid
      rw [← hlabel]
      exact (hwf.exact_of_reaches hexact (hwf.mem_descendants.1 hid)).matched
  rw [hgrow, hvalid]

/-- In the tree of a valid run every node holds the text that its span covers. -/
theorem exact_of_rawParse (hrules : ctx.rules.Lexical) (h : ctx.rawParse rule = .ok p)
    (hvalid : p.valid = true) : Sprout.Exact ctx (p.tree.sprout Tree.root) := by
  have hgrow := grow_valid_of_rawParse hrules h
  rw [hvalid] at hgrow
  exact (yields_grow hrules ctx.limit (.ref rule) 0 _ ctx.source.tail?_zero hgrow).1

/-- Both kinds of rules make up the statement language. Where all rules are of these kinds, the
children of every node of a valid tree tile its span if its rule calls others, no cursor below a
node is beyond its own, and the value of a node is the slice of the source that its span covers. -/
theorem lexeme_exact : Language.statements.index.Lexical ∧
    ∀ (ctx : Context) (rule : String) (p : RawParse), ctx.rules.Lexical →
      ctx.rawParse rule = .ok p → p.valid = true → ∀ n ∈ p.tree.reachable,
        (∀ body, ctx.rules.rule? (p.tree.node n).name = some body → body.Composite →
          p.tree.Tiles (p.tree.node n).start (p.tree.node n).point (p.tree.node n).children) ∧
        p.tree.stop n = (p.tree.node n).point ∧
        ctx.source.slice? (p.tree.node n).start (p.tree.node n).point = some (p.tree.value n) := by
  refine ⟨Language.lexical_statements, ?_⟩
  intro ctx rule p hrules h hvalid n hn
  have hwf := wellFormed_of_rawParse h
  have hexact := hwf.exact_of_reaches (exact_of_rawParse hrules h hvalid) (hwf.mem_reachable.1 hn)
  rw [hwf.value_eq, hwf.stop_eq]
  have hvalue := hexact.spells.slice?
  have hstop := hexact.stop_eq
  rw [String.ofList_toList] at hvalue
  rw [hwf.sprout_eq] at hexact hvalue hstop ⊢
  refine ⟨fun body hrule hcomposite => ?_, hstop, hvalue⟩
  rw [← hwf.tiles_iff]
  cases hexact with
  | mk _ _ _ tiles _ => exact tiles body hrule hcomposite

theorem lexeme_exact_string : ∃ p,
    rawParse { source := .ofString "$a = \"é\";", rules := Language.statements.index }
        "SCRIPT" = .ok p ∧
      p.valid = true ∧ ∀ n ∈ p.tree.reachable, p.tree.stop n = (p.tree.node n).point ∧
        (Source.ofString "$a = \"é\";").slice? (p.tree.node n).start (p.tree.node n).point =
          some (p.tree.value n) := by
  have hrun : (rawParse { source := .ofString "$a = \"é\";", rules := Language.statements.index }
      "SCRIPT").toOption.map RawParse.valid = some true := by decide +kernel
  cases hp : rawParse { source := .ofString "$a = \"é\";", rules := Language.statements.index }
      "SCRIPT" with
  | error e =>
    rw [hp] at hrun
    cases hrun
  | ok p =>
    rw [hp] at hrun
    have hvalid := Option.some.inj hrun
    have hexact := lexeme_exact.2
      { source := .ofString "$a = \"é\";", rules := Language.statements.index } "SCRIPT" p
      Language.lexical_statements hp hvalid
    exact ⟨p, rfl, hvalid, fun n hn => (hexact n hn).2⟩

end Context

end RankedGrammar
