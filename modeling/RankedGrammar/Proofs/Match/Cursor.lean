import RankedGrammar.Proofs.Match.Expected

/-!
Where cursors are. A step moves the cursor of its node not beyond the end of the source, and forward
unless a skip wraps around. Then what it adds to the table it adds at the place where it began or
later; so every node of a run, kept or not, lies in the source, after its parent has begun.
-/
namespace RankedGrammar

mutual

def Expr.skips : Expr → List Nat
  | .skip amount => [amount]
  | .seq es => Expr.skipsOf es
  | .alt es => Expr.skipsOf es
  | .all es => Expr.skipsOf es
  | .any es => Expr.skipsOf es
  | .many e => e.skips
  | .tally e _ => e.skips
  | .counted e _ => e.skips
  | .not e => e.skips
  | .ifElse e yes no => e.skips ++ (yes.skips ++ no.skips)
  | _ => []

def Expr.skipsOf : List Expr → List Nat
  | [] => []
  | e :: es => e.skips ++ Expr.skipsOf es

end

/-- No skip of the body wraps around, wherever in the source it is made. -/
def Expr.Fits (src : Source) (e : Expr) : Prop :=
  ∀ amount ∈ e.skips, src.size + amount < UInt64.size

instance (src : Source) (e : Expr) : Decidable (e.Fits src) :=
  inferInstanceAs (Decidable (∀ amount ∈ e.skips, src.size + amount < UInt64.size))

/-- No skip of any rule wraps around. -/
def Context.Fits (ctx : Context) : Prop :=
  ∀ name body, ctx.rules.rule? name = some body → body.Fits ctx.source

theorem Context.Fits.of_entries {ctx : Context}
    (h : ∀ entry ∈ ctx.rules.entries.entries, entry.2.rule.Fits ctx.source) : ctx.Fits := by
  intro name body hrule
  obtain ⟨entry, hentry, rfl⟩ := RuleIndex.mem_of_rule? hrule
  exact h entry hentry

namespace Expr.Fits

variable {src : Source} {e yes no : Expr} {es : List Expr}

theorem of_mem (h : ∀ amount ∈ Expr.skipsOf es, src.size + amount < UInt64.size) (he : e ∈ es) :
    e.Fits src := by
  induction es with
  | nil => cases he
  | cons e' es ih =>
    rw [Expr.skipsOf, List.forall_mem_append] at h
    cases List.mem_cons.1 he with
    | inl heq => exact heq ▸ h.1
    | inr hin => exact ih h.2 hin

theorem parts (h : (Expr.ifElse e yes no).Fits src) : e.Fits src ∧ yes.Fits src ∧ no.Fits src := by
  unfold Fits at h
  rw [skips, List.forall_mem_append, List.forall_mem_append] at h
  exact h

end Expr.Fits

/-- A failure of the body leaves the cursor where it was. -/
def Expr.rewinds : Expr → Bool
  | .ref _ | .named _ _ | .lit _ | .seq _ | .alt _ => true
  | .byte _ | .text _ | .attached | .pattern _ => true
  | _ => false

/-- The position of some offset of the source, from `low` on if skips fit. -/
def Source.From (src : Source) (fits : Prop) (low : Nat) (position : Position) : Prop :=
  ∃ k, (fits → low ≤ k) ∧ k ≤ src.size ∧ src.position k = position

theorem Source.From.mono {src : Source} {fits : Prop} {low low' : Nat} {position : Position}
    (h : src.From fits low position) (hle : fits → low' ≤ low) : src.From fits low' position := by
  obtain ⟨k, hlow, hsize, hk⟩ := h
  exact ⟨k, fun hf => Nat.le_trans (hle hf) (hlow hf), hsize, hk⟩

/-- The node lies in the source; if skips fit, from `low` on, and it expected nothing before its
start. -/
structure Node.Lies (src : Source) (fits : Prop) (low : Nat) (n : Node) : Prop where
  start_size : n.start ≤ src.size
  point_size : n.point ≤ src.size
  low_le : fits → low ≤ n.start
  start_le : fits → n.start ≤ n.point
  expected : ∀ {position name}, n.expected.Has position name → src.From fits n.start position

namespace RunState

/-- A run at work on a node whose cursor lies in the source. -/
structure AtWork (src : Source) (id : Nat) (s : RunState) : Prop where
  wellFormed : s.tree.WellFormed
  lt_size : id < s.tree.size
  cursor_le : s.cursor id ≤ src.size

/-- Since the table had `base` nodes and the cursor of the node was at `low`, the cursor has stayed
in the source, and what is new lies there. If skips fit, the cursor has moved forward, and what is
new lies from `low` on. What the node expected before is `old`. -/
structure Ahead (src : Source) (fits : Prop) (id base low : Nat) (old : Position → Prop)
    (s : RunState) : Prop where
  wellFormed : s.tree.WellFormed
  lt_base : id < base
  base_le : base ≤ s.tree.size
  low_le : fits → low ≤ s.cursor id
  cursor_le : s.cursor id ≤ src.size
  lies : ∀ {j}, base ≤ j → j < s.tree.size → (s.node j).Lies src fits low
  parent : ∀ {j q : Nat}, base ≤ j → (s.node j).parent = some q →
    q < j ∧ (base ≤ q → fits → (s.node q).start ≤ (s.node j).start)
  own : ∀ {position name}, (s.node id).expected.Has position name →
    old position ∨ src.From fits low position

theorem AtWork.ahead {src : Source} (fits : Prop) {id : Nat} {s : RunState} (h : s.AtWork src id)
    (old : Position → Prop)
    (hold : ∀ {position name}, (s.node id).expected.Has position name → old position) :
    s.Ahead src fits id s.tree.size (s.cursor id) old where
  wellFormed := h.wellFormed
  lt_base := h.lt_size
  base_le := Nat.le_refl _
  low_le := fun _ => Nat.le_refl _
  cursor_le := h.cursor_le
  lies := fun hj hsize => absurd hsize (Nat.not_lt.2 hj)
  parent := fun hj hq => absurd (Tree.lt_size_of_parent hq) (Nat.not_lt.2 hj)
  own := fun hhas => .inl (hold hhas)

theorem cursor_grow (ctx : Context) (c : Call) {id : Nat} {s : RunState} (hid : id < s.tree.size) :
    (s.grow ctx id c.rule c.role).cursor s.tree.size = s.cursor id := by
  rw [cursor, Step.node_grow_child ctx c hid]
  rfl

theorem AtWork.grow {src : Source} {id : Nat} {s : RunState} (ctx : Context) (c : Call)
    (h : s.AtWork src id) : (s.grow ctx id c.rule c.role).AtWork src s.tree.size where
  wellFormed := (Step.extends_grow ctx c.rule c.role h.wellFormed h.lt_size).wellFormed
  lt_size := by
    rw [size_grow]
    exact Nat.lt_succ_self _
  cursor_le := (cursor_grow ctx c h.lt_size).symm ▸ h.cursor_le

/-- After work on a new child, the child begins at the cursor of its parent, and what was there
before is as it was. -/
theorem grown {id : Nat} {s s₁ s₂ : RunState} (ctx : Context) (c : Call)
    (hs : s.tree.WellFormed) (hid : id < s.tree.size) (hs₁ : s.grow ctx id c.rule c.role = s₁)
    (hext : s₁.Extends s.tree.size s₂) :
    s₂.node id = { s.node id with children := (s.node id).children ++ [s.tree.size] } ∧
      (s₂.node s.tree.size).start = s.cursor id ∧
      (s₂.node s.tree.size).parent = some id ∧
      ∀ j, j < s.tree.size → j ≠ id → s₂.node j = s.node j := by
  have hgrow := Step.extends_grow ctx c.rule c.role hs hid
  have hself := Step.node_grow_self ctx c hid
  have hfresh := Step.node_grow_child ctx c hid
  rw [hs₁] at hgrow hself hfresh
  have hkept : ∀ j, j < s.tree.size → s₂.node j = s₁.node j := fun j hj =>
    hext.node_eq j (Nat.lt_of_lt_of_le hj hgrow.size_le) (Nat.ne_of_lt hj)
  refine ⟨(hkept id hid).trans hself, ?_, ?_, fun j hj hne => ?_⟩
  · rw [hext.origin.start, hfresh]
    rfl
  · rw [hext.origin.parent, hfresh]
    rfl
  · rw [hkept j hj, hgrow.node_eq j hj hne]

namespace Ahead

variable {src : Source} {fits : Prop} {id base low : Nat} {old : Position → Prop}
  {s s' : RunState} {f : Node → Node}

theorem lt_size (h : s.Ahead src fits id base low old) : id < s.tree.size :=
  Nat.lt_of_lt_of_le h.lt_base h.base_le

theorem atWork (h : s.Ahead src fits id base low old) : s.AtWork src id :=
  ⟨h.wellFormed, h.lt_size, h.cursor_le⟩

theorem congr (h : s.Ahead src fits id base low old) (htree : s'.tree = s.tree) :
    s'.Ahead src fits id base low old := by
  obtain ⟨tree, counters, fault, journal⟩ := s'
  subst htree
  exact ⟨h.wellFormed, h.lt_base, h.base_le, h.low_le, h.cursor_le, h.lies, h.parent, h.own⟩

theorem modify (h : s.Ahead src fits id base low old) (hwf : (s.modify id f).tree.WellFormed)
    (hlow : fits → low ≤ (f (s.node id)).point) (hsize : (f (s.node id)).point ≤ src.size)
    (hown : ∀ {position name}, (f (s.node id)).expected.Has position name →
      (s.node id).expected.Has position name ∨ src.From fits low position) :
    (s.modify id f).Ahead src fits id base low old := by
  have hself : (s.modify id f).node id = f (s.node id) := s.node_modify_self f h.lt_size
  have hother : ∀ {j}, base ≤ j → (s.modify id f).node j = s.node j := by
    intro j hj
    exact s.node_modify_of_ne f (Nat.ne_of_lt (Nat.lt_of_lt_of_le h.lt_base hj))
  constructor
  · exact hwf
  · exact h.lt_base
  · rw [size_modify]
    exact h.base_le
  · rw [cursor, hself]
    exact hlow
  · rw [cursor, hself]
    exact hsize
  · intro j hj hlt
    rw [size_modify] at hlt
    rw [hother hj]
    exact h.lies hj hlt
  · intro j q hj hparent
    rw [hother hj] at hparent ⊢
    obtain ⟨hlt, hstart⟩ := h.parent hj hparent
    exact ⟨hlt, fun hq hf => hother hq ▸ hstart hq hf⟩
  · intro position name hhas
    rw [hself] at hhas
    cases hown hhas with
    | inl hbefore => exact h.own hbefore
    | inr hnew => exact .inr hnew

theorem moveTo (h : s.Ahead src fits id base low old) {point : Nat} (hlow : fits → low ≤ point)
    (hsize : point ≤ src.size) : (s.moveTo id point).Ahead src fits id base low old :=
  h.modify (h.wellFormed.modify rfl rfl) hlow hsize .inl

theorem keepChildren (h : s.Ahead src fits id base low old) (count : Nat) :
    (s.keepChildren id count).Ahead src fits id base low old :=
  h.modify (h.wellFormed.sublistChildren h.lt_size rfl (List.take_sublist _ _)) h.low_le h.cursor_le
    .inl

theorem addExpected (h : s.Ahead src fits id base low old) {e : Expectations}
    (he : ∀ {position name}, e.Has position name → src.From fits low position) :
    (s.addExpected id e).Ahead src fits id base low old := by
  refine h.modify (h.wellFormed.modify rfl rfl) h.low_le h.cursor_le fun hhas => ?_
  exact (Expectations.has_merge.1 hhas).imp_right he

/-- What new nodes and those below them expected, they expected from `low` on. -/
theorem from_expectedOf (h : s.Ahead src fits id base low old) {ids : List NodeId}
    (hids : ∀ c ∈ ids, base ≤ c ∧ c < s.tree.size) {position : Position} {name : String}
    (hhas : (s.expectedOf ids).Has position name) : src.From fits low position := by
  obtain ⟨c, hc, d, hd, hexpected⟩ := (has_expectedOf h.wellFormed).1 hhas
  obtain ⟨hbase, hlt⟩ := hids c hc
  have hle := h.wellFormed.le_of_reaches hd
  have hlies := h.lies (Nat.le_trans hbase hle) (h.wellFormed.lt_size_of_reaches hlt hd)
  exact (hlies.expected hexpected).mono hlies.low_le

/-- What a new child has added is new for its parent as well. -/
theorem below {s₁ : RunState} (ctx : Context) (c : Call) (h : s.Ahead src fits id base low old)
    (hs₁ : s.grow ctx id c.rule c.role = s₁) (s₂ : RunState) (hext : s₁.Extends s.tree.size s₂)
    (hchild : s₂.Ahead src fits s.tree.size s₁.tree.size (s.cursor id) fun _ => False) :
    s₂.Ahead src fits id base low old := by
  obtain ⟨hself, hstart, hparent, hkept⟩ := grown ctx c h.wellFormed h.lt_size hs₁ hext
  have hsize : s₁.tree.size = s.tree.size + 1 := hs₁ ▸ s.size_grow ctx id _ _
  have hbase := h.base_le
  have hlow := h.low_le
  have hid := h.lt_base
  have hcursor : s₂.cursor id = s.cursor id := by
    rw [cursor, hself]
    rfl
  have hold : ∀ {j}, base ≤ j → j < s.tree.size → s₂.node j = s.node j :=
    fun hj hjlt => hkept _ hjlt (by omega)
  constructor
  · exact hchild.wellFormed
  · exact h.lt_base
  · exact Nat.le_trans hbase (Nat.le_of_lt (Nat.lt_of_lt_of_le (by omega) hchild.base_le))
  · rw [hcursor]
    exact hlow
  · rw [hcursor]
    exact h.cursor_le
  · intro j hj hjlt
    rcases Nat.lt_trichotomy j s.tree.size with hlt | heq | hgt
    · rw [hold hj hlt]
      exact h.lies hj hlt
    · subst heq
      refine ⟨hstart ▸ h.cursor_le, hchild.cursor_le, hstart ▸ hlow, hstart ▸ hchild.low_le,
        fun hhas => ?_⟩
      rw [hstart]
      exact (hchild.own hhas).resolve_left fun hfalse => hfalse
    · have hlies := hchild.lies (by omega) hjlt
      exact { hlies with low_le := fun hf => Nat.le_trans (hlow hf) (hlies.low_le hf) }
  · intro j q hj hjq
    rcases Nat.lt_trichotomy j s.tree.size with hlt | heq | hgt
    · rw [hold hj hlt] at hjq ⊢
      obtain ⟨hqj, hstarts⟩ := h.parent hj hjq
      exact ⟨hqj, fun hq hf => hold hq (Nat.lt_trans hqj hlt) ▸ hstarts hq hf⟩
    · subst heq
      obtain rfl : id = q := Option.some.inj (hparent.symm.trans hjq)
      exact ⟨h.lt_size, fun hq => absurd hid (Nat.not_lt.2 hq)⟩
    · have hjlt := Tree.lt_size_of_parent hjq
      obtain ⟨hqj, hstarts⟩ := hchild.parent (by omega) hjq
      refine ⟨hqj, fun _ hf => ?_⟩
      obtain ⟨q', hq', hbelow⟩ := hext.parent_new j (by omega) hjlt
      obtain rfl : q' = q := Option.some.inj (hq'.symm.trans hjq)
      cases hbelow with
      | inl heq =>
        rw [heq, hstart]
        exact (hchild.lies (by omega) hjlt).low_le hf
      | inr hnew => exact hstarts hnew hf
  · intro position name hhas
    rw [hself] at hhas
    exact h.own hhas

end Ahead

end RunState

theorem Source.lt_size_of_byteAt? {src : Source} {offset : Nat} {b : UInt8}
    (h : src.byteAt? offset = some b) : offset < src.size :=
  (Array.getElem?_eq_some_iff.1 h).1

/-- What remains fits in, also where nothing remains because the offset lies inside a character. -/
theorem Source.add_remaining_le {src : Source} {offset : Nat} (h : offset ≤ src.size) :
    offset + Text.byteLength (src.remaining offset) ≤ src.size := by
  unfold remaining
  cases htail : src.tail? offset with
  | none => exact h
  | some cs => exact Nat.le_of_eq (size_of_tail? htail).symm

namespace Terminal

variable {src : Source} {fits : Prop} {f : Terminal}

/-- The terminal moves the cursor forward if skips fit, and not beyond the end in any case, and
expects nothing earlier. -/
structure Forward (src : Source) (fits : Prop) (f : Terminal) : Prop where
  keeps : f.Keeps
  le_point : ∀ n, fits → n.point ≤ src.size → n.point ≤ (f n).2.point
  point_le : ∀ n, n.point ≤ src.size → (f n).2.point ≤ src.size
  expected : ∀ n {position name}, n.point ≤ src.size → (f n).2.expected.Has position name →
    n.expected.Has position name ∨ src.From fits n.point position

def Rewinds (f : Terminal) : Prop := ∀ n, (f n).1 = false → (f n).2.point = n.point

theorem Forward.of_spares (hkeeps : f.Keeps) (hquiet : f.Spares Node.expected)
    (hpoint : ∀ n, n.point ≤ src.size → n.point ≤ (f n).2.point ∧ (f n).2.point ≤ src.size) :
    f.Forward src fits :=
  ⟨hkeeps, fun n _ hn => (hpoint n hn).1, fun n hn => (hpoint n hn).2,
    fun n _ _ _ hhas => .inl (hquiet n ▸ hhas)⟩

theorem forward_rfl (h : ∀ n, (f n).2 = n) : f.Forward src fits :=
  .of_spares (keeps_rfl h) (fun n => congrArg Node.expected (h n)) fun n hn =>
    (h n).symm ▸ ⟨Nat.le_refl _, hn⟩

theorem forward_byte (k : ByteClass) : (byte src k).Forward src fits := by
  refine .of_spares (keeps_byte src k) (spares_byte (fun _ _ _ => rfl) src k) fun n hn => ?_
  unfold byte
  split
  · next hbyte =>
    obtain ⟨b, hb, -⟩ := (Option.any_eq_true _ _).1 hbyte
    exact ⟨Nat.le_succ _, Source.lt_size_of_byteAt? hb⟩
  · exact ⟨Nat.le_refl _, hn⟩

theorem rewinds_byte (k : ByteClass) : (byte src k).Rewinds := by
  intro n hfail
  unfold byte at hfail ⊢
  split at hfail
  · cases hfail
  · next hbyte => rw [if_neg hbyte]

section Reader

variable {reader : List Char → Option (List Char)}

theorem point_takeRead_le (hreader : ∀ cs ds, reader cs = some ds → ds <+: cs) (n : Node)
    (hn : n.point ≤ src.size) :
    n.point ≤ (takeRead src reader n).2.point ∧ (takeRead src reader n).2.point ≤ src.size := by
  unfold takeRead
  split
  · next ds hread =>
    obtain ⟨rest, hrest⟩ := hreader _ _ hread
    have hfits := Source.add_remaining_le hn
    rw [← hrest, Text.byteLength_append] at hfits
    exact ⟨Nat.le_add_right _ _, by unfold take; dsimp only; omega⟩
  · exact ⟨Nat.le_refl _, hn⟩

theorem forward_takeRead (hreader : ∀ cs ds, reader cs = some ds → ds <+: cs) :
    (takeRead src reader).Forward src fits :=
  .of_spares (keeps_takeRead src reader) (spares_takeRead (fun _ _ _ => rfl) src reader)
    (point_takeRead_le hreader)

theorem rewinds_takeRead : (takeRead src reader).Rewinds := by
  intro n hfail
  unfold takeRead at hfail ⊢
  split at hfail
  · cases hfail
  · rfl

end Reader

theorem forward_text (t : String) : (text src t).Forward src fits :=
  forward_takeRead fun _ _ h => isPrefix_of_reader h

theorem forward_attached : (attached src).Forward src fits := by
  refine .of_spares (keeps_attached src) (spares_attached (fun _ _ _ => rfl) src) fun n hn => ?_
  unfold attached
  split
  · split
    · exact ⟨Nat.le_refl _, hn⟩
    · exact point_takeRead_le (fun _ _ h => isPrefix_of_reader h) n hn
  · exact ⟨Nat.le_refl _, hn⟩

theorem rewinds_attached : (attached src).Rewinds := by
  intro n hfail
  unfold attached at hfail ⊢
  split at hfail
  · split at hfail
    · next hempty => rw [if_pos hempty]
    · next hnonempty =>
      rw [if_neg hnonempty]
      exact rewinds_takeRead n hfail
  · rfl

theorem countBytes_le (k : ByteClass) (cs : List Char) :
    countBytes k cs ≤ Text.byteLength cs := by
  induction cs with
  | nil => exact Nat.le_refl 0
  | cons c cs ih =>
    have hrun : ((String.utf8EncodeChar c).takeWhile k.contains).length ≤ c.utf8Size := by
      rw [← String.length_utf8EncodeChar]
      exact List.IsPrefix.length_le <| List.takeWhile_prefix _
    rw [countBytes, Text.byteLength_cons]
    split
    · omega
    · omega

theorem forward_bytes (k : ByteClass) (least : Nat) : (bytes src k least).Forward src fits := by
  refine .of_spares (fun n => keeps_take _ _ n) (fun _ => rfl) fun n hn => ?_
  have hcount := countBytes_le k (src.remaining n.point)
  have hfits := Source.add_remaining_le hn
  exact ⟨Nat.le_add_right _ _, by unfold bytes take; dsimp only; omega⟩

theorem forward_skip {amount : Nat} (h : fits → src.size + amount < UInt64.size) :
    (skip src amount).Forward src fits where
  keeps := fun _ => ⟨⟨rfl, rfl, rfl, rfl, rfl, rfl, rfl⟩, rfl⟩
  le_point := by
    intro n hf hn
    have hsum : Source.advance n.point amount = n.point + amount :=
      Source.advance_of_lt (Nat.lt_of_le_of_lt (Nat.add_le_add_right hn amount) (h hf))
    exact Nat.le_min.2 ⟨hsum ▸ Nat.le_add_right _ _, hn⟩
  point_le := fun _ _ => Nat.min_le_right _ _
  expected := fun _ _ _ _ hhas => .inl hhas

/-- A skip goes back exactly where its sum does not fit. -/
theorem le_point_skip_iff {amount : Nat} {n : Node} (hn : n.point ≤ src.size)
    (hsize : src.size < UInt64.size) (hamount : amount < UInt64.size) :
    n.point ≤ (skip src amount n).2.point ↔ n.point + amount < UInt64.size := by
  unfold skip
  rw [Nat.le_min, Source.le_advance_iff (Nat.lt_of_le_of_lt hn hsize) hamount]
  exact and_iff_left hn

theorem forward_record (t : String) : (record t).Forward src fits :=
  .of_spares (fun _ => ⟨⟨rfl, rfl, rfl, rfl, rfl, rfl, rfl⟩, rfl⟩) (fun _ => rfl)
    fun _ hn => ⟨Nat.le_refl _, hn⟩

theorem forward_expect (name : String) : (expect src name).Forward src fits where
  keeps := fun _ => ⟨⟨rfl, rfl, rfl, rfl, rfl, rfl, rfl⟩, rfl⟩
  le_point := fun _ _ _ => Nat.le_refl _
  point_le := fun _ hn => hn
  expected := by
    intro n position other hn hhas
    refine (Expectations.has_merge.1 hhas).imp_right fun hsingle => ?_
    exact ⟨n.point, fun _ => Nat.le_refl _, hn, (Expectations.has_single.1 hsingle).1.symm⟩

end Terminal

namespace Step

/-- The step keeps the cursor of its node in the source and what it adds there as well; if skips
fit, it moves the cursor forward, and what it adds lies from there on. -/
structure Forward (src : Source) (fits : Prop) (id : Nat) (r : Step) : Prop where
  work : Local id r
  keeps : ∀ base low old, Keeps (RunState.Ahead src fits id base low old) r

section Forward

variable {src : Source} {fits : Prop} {id base low : Nat} {old : Position → Prop} {r : Step}
  {rs : List Step} {s : RunState}

theorem Forward.ahead (h : Forward src fits id r) (hs : s.AtWork src id) :
    (r s).2.Ahead src fits id s.tree.size (s.cursor id)
      fun position => ∃ name, (s.node id).expected.Has position name :=
  h.keeps _ _ _ _ (hs.ahead fits _ fun hhas => ⟨_, hhas⟩)

theorem Forward.atWork (h : Forward src fits id r) : Keeps (RunState.AtWork src id) r :=
  fun _ hs => (h.ahead hs).atWork

theorem ahead_own {f : Terminal} (hf : f.Forward src fits) :
    Keeps (RunState.Ahead src fits id base low old) (own id f) := by
  intro s hs
  obtain ⟨horigin, hchildren⟩ := hf.keeps (s.node id)
  refine hs.modify (hs.wellFormed.modify horigin.parent hchildren)
    (fun hfits => Nat.le_trans (hs.low_le hfits) (hf.le_point (s.node id) hfits hs.cursor_le))
    (hf.point_le (s.node id) hs.cursor_le) fun hhas => ?_
  exact (hf.expected _ hs.cursor_le hhas).imp_right fun hnew => hnew.mono hs.low_le

theorem ahead_sequence (h : ∀ r ∈ rs, Keeps (RunState.Ahead src fits id base low old) r) :
    Keeps (RunState.Ahead src fits id base low old) (sequence id rs) :=
  keeps_sequence (fun _ _ hs hs' => hs'.moveTo hs.low_le hs.cursor_le) h

theorem ahead_trials (h : ∀ r ∈ rs, Keeps (RunState.Ahead src fits id base low old) r) {point : Nat}
    (kept : Nat) (hlow : fits → low ≤ point) (hsize : point ≤ src.size)
    (hs : s.Ahead src fits id base low old) :
    (trials id point kept rs s).2.Ahead src fits id base low old ∧
      ∀ t ∈ (trials id point kept rs s).1, (fits → low ≤ t.point) ∧ t.point ≤ src.size := by
  induction rs generalizing s with
  | nil => exact ⟨hs, by simp [trials]⟩
  | cons r rs ih =>
    obtain ⟨hfirst, hothers⟩ := List.forall_mem_cons.1 h
    have htried := hfirst _ (hs.moveTo hlow hsize)
    obtain ⟨hrest, hpoints⟩ := ih hothers (htried.keepChildren kept)
    rw [trials_cons]
    exact ⟨hrest, List.forall_mem_cons.2 ⟨⟨htried.low_le, htried.cursor_le⟩, hpoints⟩⟩

theorem ahead_settle {s' : RunState} {ts : List (Trial NodeId)} {point : Nat}
    (hlow : fits → low ≤ point) (hsize : point ≤ src.size) (hs : s.Ahead src fits id base low old)
    (hext : s.Extends id s') (hs' : s'.Ahead src fits id base low old)
    (hsame : (s'.node id).children = (s.node id).children) (hfits : ∀ t ∈ ts, t.Fits id s s')
    (hpoints : ∀ t ∈ ts, (fits → low ≤ t.point) ∧ t.point ≤ src.size) :
    (settle id point (ts, s')).2.Ahead src fits id base low old := by
  have hmove : s'.Extends id (s'.moveTo id point) :=
    (RunState.Extends.refl hs'.wellFormed).moveTo hs'.lt_size point
  have hmoved := hs'.moveTo hlow hsize
  simp only [settle]
  split
  · exact hmoved
  split
  · next best hbest =>
    have hmem := (mem_of_ranked (mem_of_heaviest hbest)).1
    have hchildren : ((s'.moveTo id point).node id).children = (s.node id).children :=
      (Tree.apply_node_modify Node.children rfl id).trans hsame
    have hadd := extends_adopt hs.wellFormed hs.lt_size (hext.trans hs.lt_size hmove) hchildren
      ((hfits best.trial hmem).later hs.lt_size hmove)
    have hadopted := hmoved.modify hadd.wellFormed hmoved.low_le hmoved.cursor_le .inl
    obtain ⟨hle, hend⟩ := hpoints best.trial hmem
    exact RunState.Ahead.congr (hadopted.moveTo hle hend) rfl
  · refine hmoved.addExpected fun hhas => hmoved.from_expectedOf (fun c hc => ?_) hhas
    obtain ⟨t, ht, hct⟩ := List.mem_flatMap.1 hc
    obtain ⟨hge, hlt, -⟩ := ((hfits t ht).later hs.lt_size hmove).new c hct
    exact ⟨Nat.le_trans hs.base_le hge, hlt⟩

theorem ahead_alternation (hlocal : ∀ r ∈ rs, Local id r)
    (h : ∀ r ∈ rs, Keeps (RunState.Ahead src fits id base low old) r) :
    Keeps (RunState.Ahead src fits id base low old) (alternation id rs) := by
  intro s hs
  have hnoted : s.noteAlternation.Ahead src fits id base low old := hs.congr rfl
  obtain ⟨hext, hsame, hfits⟩ :=
    trials_spec hlocal (s.cursor id) hnoted.wellFormed hnoted.lt_size rfl
  obtain ⟨htried, hpoints⟩ := ahead_trials h _ hs.low_le hs.cursor_le hnoted
  exact ahead_settle hs.low_le hs.cursor_le hnoted hext htried hsame hfits hpoints

theorem ahead_takeBack (hs : s.Ahead src fits id base low old) {point kept : Nat}
    (hlow : fits → low ≤ point) (hsize : point ≤ src.size)
    (hnew : ∀ c ∈ s.childrenFrom id kept, base ≤ c) :
    (takeBack id point kept s).Ahead src fits id base low old := by
  refine RunState.Ahead.moveTo ((hs.keepChildren kept).addExpected fun hhas => ?_) hlow hsize
  refine hs.from_expectedOf (fun c hc => ⟨hnew c hc, ?_⟩) hhas
  exact hs.wellFormed.lt_size (List.mem_of_mem_drop hc)

theorem ahead_turns (hlocal : Local id r) (h : Keeps (RunState.Ahead src fits id base low old) r)
    (fuel count : Nat) (hs : s.Ahead src fits id base low old) :
    (turns id r fuel count s).2.Ahead src fits id base low old := by
  induction fuel generalizing count s with
  | zero => exact hs
  | succ fuel ih =>
    have hr := h s hs
    obtain ⟨-, hnew⟩ := (hlocal s hs.wellFormed hs.lt_size).childrenFrom rfl
    rw [turns]
    generalize r s = out at hr hnew ⊢
    obtain ⟨matched, s'⟩ := out
    dsimp only at hr hnew ⊢
    split
    · exact ih (count + 1) hr
    · exact ahead_takeBack hr hs.low_le hs.cursor_le fun c hc => Nat.le_trans hs.base_le (hnew c hc)

theorem ahead_call {ctx : Context} {run : NodeId → Step} (c : Call)
    (h : ∀ child : Nat, Forward ctx.source fits child (run child)) :
    Keeps (RunState.Ahead ctx.source fits id base low old) (call ctx run id c) := by
  intro s hs
  have hstart := hs.atWork.grow ctx c
  have hpoint := RunState.cursor_grow ctx c hs.lt_size
  have hquiet : ∀ {position name},
      ((s.grow ctx id c.rule c.role).node s.tree.size).expected.Has position name → False := by
    intro position name hhas
    rw [node_grow_child ctx c hs.lt_size] at hhas
    exact Expectations.has_empty hhas
  have hbelow := hs.below ctx c (Eq.refl (s.grow ctx id c.rule c.role))
  unfold call
  generalize s.grow ctx id c.rule c.role = s₁ at hstart hpoint hquiet hbelow ⊢
  have hrun := (h s.tree.size).keeps _ _ _ _ (hstart.ahead fits (fun _ => False) hquiet)
  have hext := (h s.tree.size).work s₁ hstart.wellFormed hstart.lt_size
  have hwork := hbelow _ hext (hpoint ▸ hrun)
  have hle : fits → low ≤ (run s.tree.size s₁).2.cursor s.tree.size := fun hfits =>
    Nat.le_trans (hs.low_le hfits) (hpoint ▸ hrun.low_le hfits)
  have hend := hrun.cursor_le
  generalize run s.tree.size s₁ = out at hwork hle hend ⊢
  obtain ⟨ok, s'⟩ := out
  cases ok with
  | true => exact hwork.moveTo hle hend
  | false =>
    obtain ⟨hsame, hchildren⟩ := Node.keeps_missed ctx.source c (s'.node id)
    have hkept := Node.missed_spares (g := Node.point) (fun _ _ => rfl) ctx.source c (s'.node id)
    refine hwork.modify (hwork.wellFormed.modify hsame.parent hchildren) (hkept ▸ hwork.low_le)
      (hkept ▸ hwork.cursor_le) fun hhas => ?_
    refine (Node.has_missed.1 hhas).imp_right fun ⟨_, _, hposition⟩ => ?_
    exact ⟨_, hwork.low_le, hwork.cursor_le, hposition⟩

end Forward

section Rewinds

variable {id : Nat} {r : Step} {rs : List Step} {s : RunState}

theorem cursor_own {f : Terminal} (hf : f.Rewinds) (hid : id < s.tree.size)
    (hfail : (own id f s).1 = false) : (own id f s).2.cursor id = s.cursor id := by
  have hself : (own id f s).2.node id = (f (s.node id)).2 := s.node_modify_self _ hid
  rw [RunState.cursor, hself]
  exact hf (s.node id) hfail

theorem cursor_sequence (h : ∀ r ∈ rs, Local id r) (hs : s.tree.WellFormed)
    (hid : id < s.tree.size) (hfail : (sequence id rs s).1 = false) :
    (sequence id rs s).2.cursor id = s.cursor id := by
  have hsize := (local_all h s hs hid).size_le
  unfold sequence at hfail ⊢
  generalize all rs s = out at hsize hfail ⊢
  obtain ⟨ok, s'⟩ := out
  cases ok with
  | true => cases hfail
  | false => exact s'.cursor_moveTo_self _ (Nat.lt_of_lt_of_le hid hsize)

theorem cursor_settle {point : Nat} {ts : List (Trial NodeId)} (hid : id < s.tree.size)
    (hfail : (settle id point (ts, s)).1 = false) :
    (settle id point (ts, s)).2.cursor id = point := by
  have hmoved := s.cursor_moveTo_self point hid
  simp only [settle] at hfail ⊢
  split at hfail
  · next hfault =>
    rw [if_pos hfault]
    exact hmoved
  · next hfault =>
    rw [if_neg hfault]
    split at hfail
    · cases hfail
    · rw [RunState.cursor, RunState.addExpected,
        RunState.node_modify_self _ _ ((RunState.size_modify s id _).symm ▸ hid)]
      exact hmoved

theorem cursor_alternation (h : ∀ r ∈ rs, Local id r) (hs : s.tree.WellFormed)
    (hid : id < s.tree.size) (hfail : (alternation id rs s).1 = false) :
    (alternation id rs s).2.cursor id = s.cursor id := by
  obtain ⟨hext, -, -⟩ := trials_spec h (s.cursor id) (s := s.noteAlternation) hs hid rfl
  exact cursor_settle (Nat.lt_of_lt_of_le hid hext.size_le) hfail

theorem cursor_call {ctx : Context} {run : NodeId → Step} (c : Call)
    (h : ∀ child : Nat, Local child (run child)) (hs : s.tree.WellFormed) (hid : id < s.tree.size)
    (hfail : (call ctx run id c s).1 = false) :
    (call ctx run id c s).2.cursor id = s.cursor id := by
  have hgrow := extends_grow ctx c.rule c.role hs hid
  have hsize := s.size_grow ctx id c.rule c.role
  have hrun := h s.tree.size (s.grow ctx id c.rule c.role) hgrow.wellFormed (by omega)
  obtain ⟨hself, -, -, -⟩ := RunState.grown ctx c hs hid rfl hrun
  have hlt := Nat.lt_of_lt_of_le hid (Nat.le_trans hgrow.size_le hrun.size_le)
  unfold call at hfail ⊢
  generalize run s.tree.size (s.grow ctx id c.rule c.role) = out at hself hlt hfail ⊢
  obtain ⟨ok, s'⟩ := out
  cases ok with
  | true => cases hfail
  | false =>
    dsimp only at hself hlt ⊢
    rw [RunState.cursor, RunState.node_modify_self _ _ hlt,
      Node.missed_spares (g := Node.point) fun _ _ => rfl, hself]
    rfl

end Rewinds

end Step

theorem Expr.Own.forward {src : Source} {fits : Prop} {e : Expr} {f : Terminal} (h : e.Own src f)
    (he : fits → e.Fits src) : f.Forward src fits := by
  cases h with
  | byte k => exact Terminal.forward_byte k
  | text t => exact Terminal.forward_text t
  | attached => exact Terminal.forward_attached
  | pattern p =>
    exact Terminal.forward_takeRead fun _ _ hmatch => Text.Pattern.isPrefix_of_match? hmatch
  | bytes k least => exact Terminal.forward_bytes k least
  | look k offset => exact Terminal.forward_rfl fun _ => rfl
  | skip amount =>
    exact Terminal.forward_skip fun hfits => he hfits amount (List.mem_singleton_self amount)
  | record t => exact Terminal.forward_record t
  | expect name => exact Terminal.forward_expect name
  | atEnd => exact Terminal.forward_rfl fun _ => rfl

theorem Expr.ahead_step {ctx : Context} {fits : Prop} {run : NodeId → Step} (id base low : Nat)
    (old : Position → Prop) (h : ∀ child : Nat, Step.Forward ctx.source fits child (run child))
    (e : Expr) (he : fits → e.Fits ctx.source) :
    Step.Keeps (RunState.Ahead ctx.source fits id base low old) (e.step ctx run id) := by
  have hwork := fun child => (h child).work
  induction e using Expr.induct ctx.source with
  | call c =>
    rw [c.step_body]
    exact Step.ahead_call c h
  | seq es ih =>
    exact Step.ahead_sequence
      (forall_mem_steps fun e hmem => ih e hmem fun hf => .of_mem (he hf) hmem)
  | alt es ih =>
    exact Step.ahead_alternation (local_steps ctx id hwork es)
      (forall_mem_steps fun e hmem => ih e hmem fun hf => .of_mem (he hf) hmem)
  | many e ih => exact fun _ hs => Step.ahead_turns (e.local_step ctx id hwork) (ih he) _ 0 hs
  | tally e least ih =>
    intro s hs
    have hturns := Step.ahead_turns (e.local_step ctx id hwork) (ih he)
      (ctx.source.size - s.cursor id + 1) 0 hs
    exact hturns.congr rfl
  | counted e test ih =>
    exact fun s hs => Step.ahead_turns (e.local_step ctx id hwork) (ih he)
      (ctx.source.size - s.cursor id + 1) 0 hs
  | own hown =>
    rw [hown.step_eq]
    exact Step.ahead_own (hown.forward he)
  | probe label => exact fun _ hs => hs.congr rfl
  | not e ih => exact ih he
  | all es ih =>
    exact Step.keeps_all (forall_mem_steps fun e hmem => ih e hmem fun hf => .of_mem (he hf) hmem)
  | any es ih =>
    exact Step.keeps_any (forall_mem_steps fun e hmem => ih e hmem fun hf => .of_mem (he hf) hmem)
  | ifElse e yes no ihe ihyes ihno =>
    exact Step.keeps_ifElse (ihe fun hf => (he hf).parts.1) (ihyes fun hf => (he hf).parts.2.1)
      (ihno fun hf => (he hf).parts.2.2)
  | const ok => exact fun _ hs => hs

theorem Expr.forward_step {ctx : Context} {fits : Prop} {run : NodeId → Step} (id : Nat)
    (h : ∀ child : Nat, Step.Forward ctx.source fits child (run child)) (e : Expr)
    (he : fits → e.Fits ctx.source) : Step.Forward ctx.source fits id (e.step ctx run id) :=
  ⟨Expr.local_step ctx id (fun child => (h child).work) e,
    fun base low old => Expr.ahead_step id base low old h e he⟩

/-- The parts of which a failure does not show are the calls, the terminals that take one thing, and
sequences and alternations. -/
theorem Expr.cursor_step {ctx : Context} {run : NodeId → Step} {id : Nat} {e : Expr} {s : RunState}
    (h : ∀ child : Nat, Step.Local child (run child)) (hrewinds : e.rewinds = true)
    (hs : s.tree.WellFormed) (hid : id < s.tree.size) (hfail : (e.step ctx run id s).1 = false) :
    (e.step ctx run id s).2.cursor id = s.cursor id := by
  cases e with
  | ref rule => exact Step.cursor_call (.ref rule) h hs hid hfail
  | named rule caption => exact Step.cursor_call (.named rule caption) h hs hid hfail
  | lit t => exact Step.cursor_call (.lit t) h hs hid hfail
  | seq es => exact Step.cursor_sequence (Expr.local_steps ctx id h es) hs hid hfail
  | alt es => exact Step.cursor_alternation (Expr.local_steps ctx id h es) hs hid hfail
  | byte k => exact Step.cursor_own (Terminal.rewinds_byte k) hid hfail
  | text t => exact Step.cursor_own Terminal.rewinds_takeRead hid hfail
  | attached => exact Step.cursor_own Terminal.rewinds_attached hid hfail
  | pattern p => exact Step.cursor_own Terminal.rewinds_takeRead hid hfail
  | _ => cases hrewinds

namespace Context

variable {ctx : Context} {fits : Prop}

theorem ahead_attempt (hrules : fits → ctx.Fits) (left id base low : Nat) (old : Position → Prop) :
    Step.Keeps (RunState.Ahead ctx.source fits id base low old) (ctx.attempt left id) := by
  induction left generalizing id base low old with
  | zero => exact keeps_attempt_zero fun hs => hs.congr
  | succ left ih =>
    exact keeps_attempt_succ (fun hs => hs.congr)
      (fun _ hs => hs.modify (hs.wellFormed.modify rfl rfl) hs.low_le hs.cursor_le .inl)
      fun _ body hbody => Expr.ahead_step id base low old
        (fun child => ⟨local_attempt ctx left child, ih child⟩) body fun hf => hrules hf _ _ hbody

theorem forward_attempt (hrules : fits → ctx.Fits) (left id : Nat) :
    Step.Forward ctx.source fits id (ctx.attempt left id) :=
  ⟨local_attempt ctx left id, ahead_attempt hrules left id⟩

/-- Cursors stay in the source, whatever is skipped. -/
theorem atWork_step (ctx : Context) (left id : Nat) (e : Expr) :
    Step.Keeps (RunState.AtWork ctx.source id) (e.step ctx (ctx.attempt left) id) :=
  (Expr.forward_step id (fun child => forward_attempt False.elim left child) e False.elim).atWork

theorem atWork_start (ctx : Context) (rule : String) :
    (RunState.start ctx rule).AtWork ctx.source Tree.root :=
  ⟨wellFormed_start ctx rule, Nat.one_pos, Nat.zero_le _⟩

/-- At the end of a run, spoilt or not, all nodes but the root are new. -/
theorem ahead_run (hrules : fits → ctx.Fits) (rule : String) :
    (ctx.attempt ctx.limit Tree.root (.start ctx rule)).2.Ahead ctx.source fits Tree.root 1 0
      fun _ => False :=
  ahead_attempt hrules ctx.limit Tree.root 1 0 _ _
    ((atWork_start ctx rule).ahead fits _ fun hhas => Expectations.has_empty hhas)

/-- The nodes of a run lie in the source, and if skips fit, each from where its parent begins on. -/
theorem lies_run (hrules : fits → ctx.Fits) (rule : String) :
    let s := (ctx.attempt ctx.limit Tree.root (.start ctx rule)).2
    ∀ n : Nat, n < s.tree.size → (s.node n).Lies ctx.source fits (s.node n).start ∧
      ∀ q, (s.node n).parent = some q → fits → (s.node q).start ≤ (s.node n).start := by
  intro s n hn
  have hend : s.Ahead ctx.source fits Tree.root 1 0 fun _ => False := ahead_run hrules rule
  have hroot : (s.node Tree.root).start = 0 := (extends_run ctx rule).origin.start
  cases n with
  | zero =>
    have hstart : ∀ k, (s.node Tree.root).start ≤ k := fun k => hroot ▸ Nat.zero_le k
    refine ⟨⟨hstart _, hend.cursor_le, fun _ => Nat.le_refl _, fun _ => hstart _, fun hhas => ?_⟩,
      fun q hq => ?_⟩
    · exact ((hend.own hhas).resolve_left not_false).mono fun _ => Nat.le_of_eq hroot
    · exact absurd (hend.wellFormed.root_parent.symm.trans hq) (Option.some_ne_none q).symm
  | succ n =>
    have hlies := hend.lies (Nat.succ_pos n) hn
    refine ⟨{ hlies with low_le := fun _ => Nat.le_refl _ }, fun q hq hfits => ?_⟩
    cases q with
    | zero => exact hroot.symm ▸ Nat.zero_le _
    | succ q => exact (hend.parent (Nat.succ_pos n) hq).2 (Nat.succ_pos q) hfits

/-- Whatever a part of a rule does, the cursor of its node stays in the source, and where a call, a
sequence, an alternation or a terminal for one thing fails, it is put back. A skip moves it back
exactly where the sum of cursor and amount wraps around; where no skip can, every part moves it
forward. Then the nodes of a run, adopted or not, lie from where their parents begin on, and what
was expected at a node or below it was expected from where the node begins on. -/
theorem cursor_forward (ctx : Context) :
    (∀ (left id : Nat) (e : Expr) (s : RunState), s.AtWork ctx.source id →
      let out := e.step ctx (ctx.attempt left) id s
      out.2.cursor id ≤ ctx.source.size ∧
      (e.rewinds = true → out.1 = false → out.2.cursor id = s.cursor id) ∧
      (ctx.Fits → e.Fits ctx.source → s.cursor id ≤ out.2.cursor id) ∧
      ∀ amount, e = .skip amount → amount < UInt64.size → ctx.source.size < UInt64.size →
        (s.cursor id ≤ out.2.cursor id ↔ s.cursor id + amount < UInt64.size)) ∧
    ∀ rule : String, let t := (ctx.attempt ctx.limit Tree.root (.start ctx rule)).2.tree
      (∀ n : Nat, n < t.size →
        (t.node n).start ≤ ctx.source.size ∧ (t.node n).point ≤ ctx.source.size) ∧
      (ctx.Fits →
        (∀ n : Nat, n < t.size → (t.node n).start ≤ (t.node n).point ∧
          ∀ q, (t.node n).parent = some q → (t.node q).start ≤ (t.node n).start) ∧
        ∀ (n : Nat) (position : Position) (name : String), n < t.size →
          (t.expected n).Has position name →
            ∃ k, (t.node n).start ≤ k ∧ k ≤ ctx.source.size ∧
              ctx.source.position k = position) := by
  constructor
  · intro left id e s hs
    refine ⟨(atWork_step ctx left id e s hs).cursor_le, fun hrewinds hfail => ?_,
      fun hrules he => ?_, ?_⟩
    · exact Expr.cursor_step (local_attempt ctx left) hrewinds hs.wellFormed hs.lt_size hfail
    · have hstep := Expr.forward_step id (fun child => forward_attempt (fun h => h) left child) e
        fun _ => he
      exact (hstep.ahead hs).low_le hrules
    · rintro amount rfl hamount hsize
      have hself : (Step.own id (.skip ctx.source amount) s).2.node id =
          (Terminal.skip ctx.source amount (s.node id)).2 := s.node_modify_self _ hs.lt_size
      exact (iff_of_eq (congrArg (fun n : Node => s.cursor id ≤ n.point) hself)).trans
        (Terminal.le_point_skip_iff hs.cursor_le hsize hamount)
  · intro rule t
    refine ⟨fun n hn => ?_, fun hrules => ⟨fun n hn => ?_, fun n position name hn hhas => ?_⟩⟩
    · have hlies : False → ctx.Fits := False.elim
      obtain ⟨hnode, -⟩ := lies_run hlies rule n hn
      exact ⟨hnode.start_size, hnode.point_size⟩
    · obtain ⟨hnode, hparent⟩ := lies_run (fun h => h) rule n hn
      exact ⟨hnode.start_le hrules, fun q hq => hparent q hq hrules⟩
    · have hlies := lies_run (fun h : ctx.Fits => h) rule
      have hwf : t.WellFormed := (extends_run ctx rule).wellFormed
      obtain ⟨d, hd, hexpected⟩ := hwf.has_expected.1 hhas
      have hstart : (t.node n).start ≤ (t.node d).start := by
        clear hexpected
        induction hd with
        | refl => exact Nat.le_refl _
        | @tail b c hb hc ih =>
          exact Nat.le_trans ih ((hlies c (hwf.lt_size hc)).2 b (hwf.parent_eq hc) hrules)
      have hlt := hwf.lt_size_of_reaches hn hd
      obtain ⟨k, hfrom, hsize, hk⟩ := (hlies d hlt).1.expected hexpected
      exact ⟨k, Nat.le_trans hstart (hfrom hrules), hsize, hk⟩

/-- A rule that takes the first byte of a letter of two bytes and calls another one inside it. -/
def halfLetter : Context where
  source := .ofString "é"
  rules := .merge .empty .empty (.ofList [
    ("ROOT", .seq [.byte (.single 0xC3), .ref "REST"]),
    ("REST", .seq [.expect "tail", .skip 5, .text "b"])])

/-- The call begins and fails inside the letter, and what it expected it expected there. The skip is
cut short by the end of the source. -/
theorem cursor_forward_halfLetter :
    let s := (RunState.start halfLetter "ROOT").moveTo Tree.root 1
    let step (e : Expr) := e.step halfLetter (halfLetter.attempt 8) Tree.root
    let t := (halfLetter.attempt halfLetter.limit Tree.root (.start halfLetter "ROOT")).2.tree
    halfLetter.source.tail? 1 = none ∧ s.AtWork halfLetter.source Tree.root ∧ halfLetter.Fits ∧
      (step (.ref "REST") s).1 = false ∧
      (step (.ref "REST") s).2.cursor Tree.root = s.cursor Tree.root ∧
      (Expr.skip 5).Fits halfLetter.source ∧
      s.cursor Tree.root ≤ (step (.skip 5) s).2.cursor Tree.root ∧
      s.cursor Tree.root + 5 < UInt64.size ∧
      (t.node 1).start = 1 ∧ (t.node 1).point ≤ halfLetter.source.size ∧
      (t.node Tree.root).start ≤ (t.node 1).start ∧
      ∃ k, 1 ≤ k ∧ k ≤ halfLetter.source.size ∧ halfLetter.source.position k = ⟨1, 1⟩ := by
  intro s step t
  have hwork : s.AtWork halfLetter.source Tree.root :=
    ⟨(wellFormed_start halfLetter "ROOT").modify rfl rfl, by decide +kernel, by decide +kernel⟩
  have hfits : halfLetter.Fits := .of_entries (by decide +kernel)
  have hskip : (Expr.skip 5).Fits halfLetter.source := by decide +kernel
  have hfail : (step (.ref "REST") s).1 = false := by decide +kernel
  have hstart : (t.node 1).start = 1 := by decide +kernel
  have hmade : 1 < t.size := by decide +kernel
  have hparent : (t.node 1).parent = some Tree.root := by decide +kernel
  have hexpected : (t.expected 1).Has ⟨1, 1⟩ "tail" := by
    show ∃ x ∈ (t.expected 1).entries, x.position = ⟨1, 1⟩ ∧ "tail" ∈ x.names
    decide +kernel
  obtain ⟨hstep, hrun⟩ := cursor_forward halfLetter
  obtain ⟨-, hrewind, -⟩ := hstep 8 Tree.root (.ref "REST") s hwork
  obtain ⟨-, -, hforward, hiff⟩ := hstep 8 Tree.root (.skip 5) s hwork
  obtain ⟨hnodes, hplaced⟩ := hrun "ROOT"
  obtain ⟨hparents, hplaces⟩ := hplaced hfits
  have hon := hforward hfits hskip
  have hfrom := hplaces 1 _ _ hmade hexpected
  rw [show (halfLetter.attempt halfLetter.limit Tree.root (.start halfLetter "ROOT")).2.tree = t
    from rfl, hstart] at hfrom
  exact ⟨by decide +kernel, hwork, hfits, hfail, hrewind rfl hfail, hskip, hon,
    (hiff 5 rfl (by decide) (by decide +kernel)).1 hon, hstart, (hnodes 1 hmade).2,
    (hparents 1 hmade).2 _ hparent, hfrom⟩

/-- A rule that takes one letter and skips so far that the sum wraps around. -/
def wrapping : Context where
  source := .ofString "abc"
  rules := .merge .empty .empty (.ofList [
    ("ROOT", .seq [.byte (.single 0x61), .ref "BACK"]),
    ("BACK", .skip (UInt64.size - 1))])

/-- The skip succeeds and moves the cursor back to the start of the source, so that the node which
it leaves behind ends before it begins. -/
theorem cursor_forward_wrapping :
    let s := (RunState.start wrapping "ROOT").moveTo Tree.root 1
    let skipped := (Expr.skip (UInt64.size - 1)).step wrapping (wrapping.attempt 8) Tree.root s
    let t := (wrapping.attempt wrapping.limit Tree.root (.start wrapping "ROOT")).2.tree
    skipped.1 = true ∧ skipped.2.cursor Tree.root = 0 ∧ s.cursor Tree.root = 1 ∧
      (t.node 1).matched = true ∧ (t.node 1).start = 1 ∧ (t.node 1).point = 0 := by
  decide +kernel

end Context

end RankedGrammar
