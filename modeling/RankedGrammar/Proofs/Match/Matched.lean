import RankedGrammar.Proofs.Match.Lexeme

/-!
What is kept below a match. A sequence that fails leaves the children that it made, some of which did
not match; but then the rule fails too, or an alternation or a repetition takes these children away.
Only where a body goes on after a failure of its own might one of them stay below a match.
-/
namespace RankedGrammar

def Step.Barren (id : Nat) (r : Step) : Prop :=
  ∀ s : RunState, s.tree.WellFormed → id < s.tree.size → (r s).2.tree.size = s.tree.size

/-- The part of a body makes no nodes, at whatever node it is at work. -/
def Expr.Barren (ctx : Context) (e : Expr) : Prop :=
  ∀ left id : Nat, Step.Barren id (e.step ctx (ctx.attempt left) id)

/-- The body goes on after a failure only where what failed made no nodes. -/
inductive Expr.Tidy (ctx : Context) : Expr → Prop where
  | ref (rule : String) : Tidy ctx (.ref rule)
  | named (rule caption : String) : Tidy ctx (.named rule caption)
  | lit (t : String) : Tidy ctx (.lit t)
  | seq {es : List Expr} (h : ∀ e ∈ es, Tidy ctx e) : Tidy ctx (.seq es)
  | alt {es : List Expr} (h : ∀ e ∈ es, Tidy ctx e) : Tidy ctx (.alt es)
  | many {e : Expr} (h : Tidy ctx e) : Tidy ctx (.many e)
  | tally {e : Expr} (h : Tidy ctx e) (least : Nat) : Tidy ctx (.tally e least)
  | counted {e : Expr} (h : Tidy ctx e) (test : Nat → Bool) : Tidy ctx (.counted e test)
  | byte (k : ByteClass) : Tidy ctx (.byte k)
  | text (t : String) : Tidy ctx (.text t)
  | attached : Tidy ctx .attached
  | pattern (p : Text.Pattern) : Tidy ctx (.pattern p)
  | bytes (k : ByteClass) (least : Nat) : Tidy ctx (.bytes k least)
  | look (k : ByteClass) (offset : Nat) : Tidy ctx (.look k offset)
  | skip (amount : Nat) : Tidy ctx (.skip amount)
  | record (t : String) : Tidy ctx (.record t)
  | expect (name : String) : Tidy ctx (.expect name)
  | atEnd : Tidy ctx .atEnd
  | probe (label : String) : Tidy ctx (.probe label)
  | not {e : Expr} (h : Tidy ctx e) (hbarren : e.Barren ctx) : Tidy ctx (.not e)
  | all {es : List Expr} (h : ∀ e ∈ es, Tidy ctx e) : Tidy ctx (.all es)
  | any {es : List Expr} (h : ∀ e ∈ es, Tidy ctx e) (hbarren : ∀ e ∈ es, e.Barren ctx) :
      Tidy ctx (.any es)
  | ifElse {e yes no : Expr} (h : Tidy ctx e) (hyes : Tidy ctx yes) (hno : Tidy ctx no)
      (hbarren : e.Barren ctx) : Tidy ctx (.ifElse e yes no)
  | const (ok : Bool) : Tidy ctx (.const ok)

def Context.Tidy (ctx : Context) : Prop :=
  ∀ name body, ctx.rules.rule? name = some body → body.Tidy ctx

namespace Tree

def Clean (t : Tree) : Prop :=
  ∀ p, (t.node p).matched = true → ∀ c ∈ (t.node p).children, (t.node c).matched = true

variable {t : Tree}

theorem Clean.of_reaches (h : t.Clean) {a d : Nat} (ha : (t.node a).matched = true)
    (hd : t.Reaches a d) : (t.node d).matched = true := by
  induction hd with
  | refl => exact ha
  | tail _ hc ih => exact h _ ih _ hc

theorem Clean.modify (h : t.Clean) {id : Nat} {f : Node → Node}
    (hopen : (t.node id).matched = false) (hf : (f (t.node id)).matched = (t.node id).matched) :
    (t.modify id f).Clean := by
  have hmatched := apply_node_modify Node.matched hf
  intro p hp c hc
  rw [hmatched] at hp ⊢
  have hne : id ≠ p := by
    rintro rfl
    rw [hopen] at hp
    cases hp
  rw [node_modify_of_ne t f hne] at hc
  exact h p hp c hc

theorem Clean.mark (h : t.Clean) {id : Nat} (hid : id < t.size)
    (hopen : (t.node id).matched = false) {matched : Bool}
    (hchildren : matched = true → ∀ c ∈ (t.node id).children, (t.node c).matched = true) :
    (t.modify id fun n => { n with matched }).Clean := by
  intro p hp c hc
  by_cases hpid : id = p
  · subst hpid
    rw [node_modify_self t _ hid] at hp hc
    by_cases hcid : id = c
    · subst hcid
      rw [node_modify_self t _ hid]
      exact hp
    · rw [node_modify_of_ne t _ hcid]
      exact hchildren hp c hc
  · rw [node_modify_of_ne t _ hpid] at hp hc
    have hcm := h p hp c hc
    have hcid : id ≠ c := by
      rintro rfl
      rw [hopen] at hcm
      cases hcm
    rw [node_modify_of_ne t _ hcid]
    exact hcm

theorem Clean.push (h : t.Clean) (hwf : t.WellFormed) {n : Node} (hn : n.children = []) :
    (t.push n).Clean := by
  intro p hp c hc
  have hsize := t.size_push n
  rcases Nat.lt_trichotomy p t.size with hlt | heq | hlt
  · rw [node_push_of_lt t n hlt] at hp hc
    rw [node_push_of_lt t n (hwf.lt_size hc)]
    exact h p hp c hc
  · subst heq
    rw [node_push_size, hn] at hc
    cases hc
  · rw [children_of_size_le (by omega)] at hc
    cases hc

/-- The node may take any children: it has not matched, and below matches all is well. -/
structure Open (t : Tree) (id : Nat) : Prop where
  clean : t.Clean
  unmatched : (t.node id).matched = false

/-- Whatever children the node has got have matched. -/
def Gains (id : Nat) (t t' : Tree) : Prop :=
  ∀ c ∈ (t'.node id).children, c ∈ (t.node id).children ∨ (t'.node c).matched = true

theorem Open.modify {id : Nat} {f : Node → Node} (h : t.Open id)
    (hf : (f (t.node id)).matched = (t.node id).matched) : (t.modify id f).Open id where
  clean := h.clean.modify h.unmatched hf
  unmatched := (apply_node_modify Node.matched hf id).trans h.unmatched

theorem Gains.refl (id : Nat) (t : Tree) : t.Gains id t := fun _ hc => .inl hc

theorem Gains.of_subset {id : Nat} {t t' : Tree}
    (h : ∀ c ∈ (t'.node id).children, c ∈ (t.node id).children) : t.Gains id t' :=
  fun c hc => .inl (h c hc)

end Tree

namespace RunState

variable {id : Nat} {s s' s'' : RunState}

theorem Extends.gains_trans (h : s.tree.Gains id s'.tree) (h' : s'.tree.Gains id s''.tree)
    (hs' : s'.tree.WellFormed) (hext : s'.Extends id s'') : s.tree.Gains id s''.tree := by
  intro c hc
  cases h' c hc with
  | inr hmatched => exact .inr hmatched
  | inl hold =>
    have hlt : id < c := hs'.lt_of_mem hold
    have hsame : s''.tree.node c = s'.tree.node c :=
      hext.node_eq c (hs'.lt_size hold) (Nat.ne_of_gt hlt)
    rw [hsame]
    exact h c hold

theorem Extends.gains_of_size_eq (h : s.Extends id s') (hsize : s'.tree.size = s.tree.size) :
    s.tree.Gains id s'.tree := by
  obtain ⟨new, hnew, hge⟩ := h.children
  refine .of_subset fun c hc => ?_
  have hlt := h.wellFormed.lt_size hc
  have hmem : c ∈ (s.node id).children ++ new := hnew ▸ hc
  refine (List.mem_append.1 hmem).resolve_right fun hin => ?_
  have hle := hge c hin
  exact absurd (hsize ▸ hlt) (Nat.not_lt.2 hle)

end RunState

theorem Node.matched_missed (src : Source) (c : Call) (n : Node) :
    (n.missed src c).matched = n.matched := by
  unfold missed
  split
  · split
    · rfl
    · rfl
  · rfl

namespace Step

/-- At work on an open node, the step leaves it open, and where it succeeds and nothing went wrong
it has given the node only children that matched. -/
def Tidy (id : Nat) (r : Step) : Prop :=
  ∀ s : RunState, s.tree.WellFormed → id < s.tree.size → s.tree.Open id →
    (r s).2.tree.Open id ∧
      ((r s).1 = true → (r s).2.fault = none → s.tree.Gains id (r s).2.tree)

/-- At work on an open node without children, the step leaves all well below matches, and what it
says of the node is marked on it. -/
def Marks (id : Nat) (r : Step) : Prop :=
  ∀ s : RunState, s.tree.WellFormed → id < s.tree.size → s.tree.Open id →
    (s.node id).children = [] →
    (r s).2.tree.Clean ∧ ((r s).2.node id).matched = (r s).1

section Tidy

variable {id : Nat} {r : Step} {rs : List Step} {s s' : RunState}

theorem barren_own (id : Nat) (f : Terminal) : Barren id (own id f) :=
  fun s _ _ => RunState.size_modify s id _

theorem Barren.trans (h : Barren id r) (hlocal : Local id r) (hid : id < s.tree.size)
    (hext : s.Extends id s' ∧ s'.tree.size = s.tree.size) :
    s.Extends id (r s').2 ∧ (r s').2.tree.size = s.tree.size := by
  obtain ⟨hext, hsize⟩ := hext
  refine ⟨hlocal.trans hid hext, ?_⟩
  rw [h s' hext.wellFormed (Nat.lt_of_lt_of_le hid hext.size_le), hsize]

theorem barren_ifElse {yes no : Step} (hlocal : Local id r) (hlocalYes : Local id yes)
    (hlocalNo : Local id no) (h : Barren id r) (hyes : Barren id yes) (hno : Barren id no) :
    Barren id (ifElse r yes no) := fun s hs hid =>
  (keeps_ifElse (P := fun u => s.Extends id u ∧ u.tree.size = s.tree.size)
    (fun _ hu => h.trans hlocal hid hu) (fun _ hu => hyes.trans hlocalYes hid hu)
    (fun _ hu => hno.trans hlocalNo hid hu) s ⟨.refl hs, rfl⟩).2

theorem barren_all (hlocal : ∀ r ∈ rs, Local id r) (h : ∀ r ∈ rs, Barren id r) :
    Barren id (all rs) := fun s hs hid =>
  (keeps_all (P := fun u => s.Extends id u ∧ u.tree.size = s.tree.size)
    (fun r hr _ hu => (h r hr).trans (hlocal r hr) hid hu) s ⟨.refl hs, rfl⟩).2

theorem barren_any (hlocal : ∀ r ∈ rs, Local id r) (h : ∀ r ∈ rs, Barren id r) :
    Barren id (any rs) := fun s hs hid =>
  (keeps_any (P := fun u => s.Extends id u ∧ u.tree.size = s.tree.size)
    (fun r hr _ hu => (h r hr).trans (hlocal r hr) hid hu) s ⟨.refl hs, rfl⟩).2

theorem tidy_own {f : Terminal} (hf : f.Keeps) (hmark : f.Spares Node.matched) :
    Tidy id (own id f) := by
  intro s _ hid h
  refine ⟨h.modify (hmark (s.node id)), fun _ _ => .of_subset fun c hc => ?_⟩
  have hnode : (own id f s).2.tree.node id = (f (s.node id)).2 := Tree.node_modify_self s.tree _ hid
  rw [hnode, (hf (s.node id)).2] at hc
  exact hc

theorem tidy_const (ok : Bool) : Tidy id fun s => (ok, s) :=
  fun s _ _ h => ⟨h, fun _ _ => .refl id s.tree⟩

/-- What follows a failure is to fail as well, unless what failed made no nodes. -/
theorem tidy_ifElse {yes no : Step} (hlocal : Local id r) (hlocalYes : Local id yes)
    (hlocalNo : Local id no) (h : Tidy id r) (hyes : Tidy id yes) (hno : Tidy id no)
    (hfails : Barren id r ∨ ∀ s, (no s).1 = false) : Tidy id (ifElse r yes no) := by
  intro s hs hid hopen
  have hext := hlocal s hs hid
  have hid' := Nat.lt_of_lt_of_le hid hext.size_le
  have hgained := fun hbarren : Barren id r => hext.gains_of_size_eq (hbarren s hs hid)
  obtain ⟨hopen', hgains⟩ := h s hs hid hopen
  unfold ifElse
  generalize r s = out at hext hid' hgained hopen' hgains ⊢
  obtain ⟨ok, s'⟩ := out
  cases ok with
  | true =>
    have hrest := hlocalYes s' hext.wellFormed hid'
    obtain ⟨hopen'', hgains'⟩ := hyes s' hext.wellFormed hid' hopen'
    refine ⟨hopen'', fun hok hfault => ?_⟩
    have hfirst := hgains rfl (hrest.fault_eq_none hfault)
    exact hrest.gains_trans hfirst (hgains' hok hfault) hext.wellFormed
  | false =>
    have hrest := hlocalNo s' hext.wellFormed hid'
    obtain ⟨hopen'', hgains'⟩ := hno s' hext.wellFormed hid' hopen'
    refine ⟨hopen'', fun hok hfault => ?_⟩
    cases hfails with
    | inl hbarren =>
      exact hrest.gains_trans (hgained hbarren) (hgains' hok hfault) hext.wellFormed
    | inr hfalse => exact absurd (hok.symm.trans (hfalse s')) Bool.noConfusion

theorem tidy_all (hlocal : ∀ r ∈ rs, Local id r) (h : ∀ r ∈ rs, Tidy id r) : Tidy id (all rs) := by
  induction rs with
  | nil => exact tidy_const true
  | cons r rs ih =>
    obtain ⟨hlocal, hlocals⟩ := List.forall_mem_cons.1 hlocal
    obtain ⟨hfirst, hothers⟩ := List.forall_mem_cons.1 h
    exact tidy_ifElse hlocal (local_all hlocals) (fun _ hs _ => .refl hs) hfirst
      (ih hlocals hothers) (tidy_const false) (.inr fun _ => rfl)

/-- Steps that make no nodes give the node no children, however they end. -/
theorem tidy_any (hlocal : ∀ r ∈ rs, Local id r) (h : ∀ r ∈ rs, Tidy id r)
    (hbarren : ∀ r ∈ rs, Barren id r) : Tidy id (any rs) := by
  induction rs with
  | nil => exact tidy_const false
  | cons r rs ih =>
    obtain ⟨hlocal, hlocals⟩ := List.forall_mem_cons.1 hlocal
    obtain ⟨hfirst, hothers⟩ := List.forall_mem_cons.1 h
    obtain ⟨hbarren, hbarrens⟩ := List.forall_mem_cons.1 hbarren
    exact tidy_ifElse hlocal (fun _ hs _ => .refl hs) (local_any hlocals) hfirst (tidy_const true)
      (ih hlocals hothers hbarrens) (.inl hbarren)

theorem tidy_negate (hlocal : Local id r) (h : Tidy id r) (hbarren : Barren id r) :
    Tidy id (negate r) := by
  rw [negate_eq]
  exact tidy_ifElse hlocal (fun _ hs _ => .refl hs) (fun _ hs _ => .refl hs) h (tidy_const false)
    (tidy_const true) (.inl hbarren)

theorem open_moveTo (h : s.tree.Open id) (point : Nat) : (s.moveTo id point).tree.Open id :=
  h.modify rfl

theorem node_moveTo (s : RunState) (id : Nat) (point j : Nat) :
    ((s.moveTo id point).node j).children = (s.node j).children ∧
      ((s.moveTo id point).node j).matched = (s.node j).matched :=
  ⟨Tree.apply_node_modify Node.children rfl j, Tree.apply_node_modify Node.matched rfl j⟩

theorem tidy_sequence (hlocal : ∀ r ∈ rs, Local id r) (h : ∀ r ∈ rs, Tidy id r) :
    Tidy id (sequence id rs) := by
  intro s hs hid hopen
  have hext := local_all hlocal s hs hid
  have hall := tidy_all hlocal h s hs hid hopen
  unfold sequence
  cases hrun : all rs s with
  | mk ok s' =>
    rw [hrun] at hext hall
    cases ok with
    | true => exact hall
    | false =>
      exact ⟨open_moveTo hall.1 _, fun hok => absurd hok Bool.false_ne_true⟩

/-- A candidate that succeeds has made only children that matched, and they stay as they are. -/
theorem matched_of_tried {base : Nat} (hid : id < s.tree.size)
    (hext : s.Extends id s') (hgains : s.tree.Gains id s'.tree)
    (hbase : base = (s.node id).children.length) (hs : s.tree.WellFormed) {s'' : RunState}
    (hlater : (s'.keepChildren id base).Extends id s'') {c : Nat}
    (hc : c ∈ s'.childrenFrom id base) : (s''.node c).matched = true := by
  have hmem : c ∈ (s'.node id).children := List.mem_of_mem_drop hc
  have hcnew : s.tree.size ≤ c := (hext.childrenFrom hbase).2 c hc
  have hmatched : (s'.node c).matched = true :=
    (hgains c hmem).resolve_left fun hold => absurd (hs.lt_size hold) (Nat.not_lt.2 hcnew)
  have hne : c ≠ id := Nat.ne_of_gt (Nat.lt_of_lt_of_le hid hcnew)
  have hlt : c < (s'.keepChildren id base).tree.size := by
    rw [RunState.keepChildren, RunState.size_modify]
    exact hext.wellFormed.lt_size hmem
  rw [hlater.node_eq c hlt hne, RunState.keepChildren, RunState.node_modify_of_ne _ _ hne.symm]
  exact hmatched

/-- Every candidate finds the node open, and if nothing went wrong those that succeeded made only
children that matched. -/
theorem tidy_trials (hlocal : ∀ r ∈ rs, Local id r) (h : ∀ r ∈ rs, Tidy id r) (point : Nat)
    {base : Nat} (hs : s.tree.WellFormed) (hid : id < s.tree.size) (hopen : s.tree.Open id)
    (hbase : base = (s.node id).children.length) :
    (trials id point base rs s).2.tree.Open id ∧ ((trials id point base rs s).2.fault = none →
      ∀ t ∈ (trials id point base rs s).1, t.matched = true →
        ∀ c ∈ t.children, ((trials id point base rs s).2.node c).matched = true) := by
  induction rs generalizing s with
  | nil => exact ⟨hopen, by simp [trials]⟩
  | cons r rs ih =>
    obtain ⟨hlocal, hlocals⟩ := List.forall_mem_cons.1 hlocal
    obtain ⟨hfirst, hothers⟩ := List.forall_mem_cons.1 h
    have hmove : s.Extends id (s.moveTo id point) := (RunState.Extends.refl hs).moveTo hid point
    have hidm := Nat.lt_of_lt_of_le hid hmove.size_le
    have hmoved : s.tree.Gains id (s.moveTo id point).tree :=
      hmove.gains_of_size_eq (RunState.size_modify s id _)
    have hstep := hlocal _ hmove.wellFormed hidm
    have hext := hmove.trans hid hstep
    obtain ⟨hopen', hgains⟩ := hfirst _ hmove.wellFormed hidm (open_moveTo hopen point)
    rw [trials_cons]
    generalize r (s.moveTo id point) = run at hext hopen' hgains hstep
    obtain ⟨ok, tried⟩ := run
    have hkeep := hext.keepChildren hs hid hbase
    have hid' := Nat.lt_of_lt_of_le hid hkeep.size_le
    have hopenk : (tried.keepChildren id base).tree.Open id := hopen'.modify rfl
    have hbase' : base = ((tried.keepChildren id base).node id).children.length := by
      rw [hext.children_keepChildren hid hbase, hbase]
    obtain ⟨hrest, hmatched⟩ := ih hlocals hothers hkeep.wellFormed hid' hopenk hbase'
    obtain ⟨hlater, -, -⟩ := trials_spec hlocals point hkeep.wellFormed hid' hbase'
    refine ⟨hrest, fun hfault t ht hok c hc => ?_⟩
    cases List.mem_cons.1 ht with
    | inr hin => exact hmatched hfault t hin hok c hc
    | inl heq =>
      subst heq
      have hnone : tried.fault = none := hlater.fault_eq_none hfault
      have hadds := hstep.gains_trans hmoved (hgains hok hnone) hmove.wellFormed
      exact matched_of_tried hid hext hadds hbase hs hlater hc

theorem tidy_settle {ts : List (Trial NodeId)} (point : Nat) (hid : id < s'.tree.size)
    (hopen : s'.tree.Open id) (hsame : (s'.node id).children = (s.node id).children)
    (hmatched : s'.fault = none → ∀ t ∈ ts, t.matched = true →
      ∀ c ∈ t.children, (s'.node c).matched = true) :
    (settle id point (ts, s')).2.tree.Open id ∧
      ((settle id point (ts, s')).1 = true → (settle id point (ts, s')).2.fault = none →
        s.tree.Gains id (settle id point (ts, s')).2.tree) := by
  have hmoved := open_moveTo hopen point
  simp only [settle]
  split
  · exact ⟨hmoved, fun hok => absurd hok Bool.false_ne_true⟩
  · next hfault =>
    split
    · next best hbest =>
      obtain ⟨hin, hok⟩ := mem_of_ranked (mem_of_heaviest hbest)
      have hnone : s'.fault = none := Option.not_isSome_iff_eq_none.1 hfault
      have hadded : ((s'.moveTo id point).addChildren id best.trial.children).tree.Open id :=
        hmoved.modify rfl
      refine ⟨open_moveTo hadded _, fun _ _ c hc => ?_⟩
      -- the node has what it had and what the candidate made
      have hsize : id < (s'.moveTo id point).tree.size := by
        rw [RunState.moveTo, RunState.size_modify]
        exact hid
      have hchildren : (((s'.moveTo id point).addChildren id best.trial.children).node id).children =
          (s.node id).children ++ best.trial.children := by
        rw [RunState.addChildren, RunState.node_modify_self _ _ hsize, (node_moveTo s' id point id).1,
          hsame]
      have hmem : c ∈ (((s'.moveTo id point).addChildren id best.trial.children).node id).children :=
        (node_moveTo _ id best.trial.point id).1 ▸ hc
      rw [hchildren] at hmem
      refine (List.mem_append.1 hmem).imp_right fun hkid => ?_
      have hadd : (((s'.moveTo id point).addChildren id best.trial.children).node c).matched =
          ((s'.moveTo id point).node c).matched := Tree.apply_node_modify Node.matched rfl c
      have hkept := (node_moveTo ((s'.moveTo id point).addChildren id best.trial.children) id
        best.trial.point c).2.trans (hadd.trans (node_moveTo s' id point c).2)
      exact hkept.trans (hmatched hnone _ hin hok c hkid)
    · exact ⟨hmoved.modify rfl, fun hok => absurd hok Bool.false_ne_true⟩

theorem tidy_alternation (hlocal : ∀ r ∈ rs, Local id r) (h : ∀ r ∈ rs, Tidy id r) :
    Tidy id (alternation id rs) := by
  intro s hs hid hopen
  obtain ⟨hext, hsame, -⟩ := trials_spec hlocal (s.cursor id) (s := s.noteAlternation) hs hid rfl
  obtain ⟨hopen', hmatched⟩ :=
    tidy_trials hlocal h (s.cursor id) (s := s.noteAlternation) hs hid hopen rfl
  exact tidy_settle (s.cursor id) (Nat.lt_of_lt_of_le hid hext.size_le) hopen' hsame hmatched

theorem open_takeBack (hopen : s.tree.Open id) (point base : Nat) :
    (takeBack id point base s).tree.Open id := by
  have hkeep : (s.keepChildren id base).tree.Open id := hopen.modify rfl
  have hadd : ((s.keepChildren id base).addExpected id
      (s.expectedOf (s.childrenFrom id base))).tree.Open id := hkeep.modify rfl
  exact open_moveTo hadd point

theorem gains_takeBack (hid : id < s.tree.size) (hext : s.Extends id s') (point : Nat) :
    s.tree.Gains id (takeBack id point (s.node id).children.length s').tree := by
  have hkept := hext.children_keepChildren hid rfl
  refine .of_subset fun c hc => ?_
  have hmem := (node_moveTo _ id point id).1 ▸ hc
  have hadd : ∀ (u : RunState) e, ((u.addExpected id e).node id).children = (u.node id).children :=
    fun u e => Tree.apply_node_modify Node.children rfl id
  rw [hadd, hkept] at hmem
  exact hmem

theorem tidy_turns (hlocal : Local id r) (h : Tidy id r) (fuel count : Nat)
    (hs : s.tree.WellFormed) (hid : id < s.tree.size) (hopen : s.tree.Open id) :
    (turns id r fuel count s).2.tree.Open id ∧
      ((turns id r fuel count s).2.fault = none →
        s.tree.Gains id (turns id r fuel count s).2.tree) := by
  induction fuel generalizing count s with
  | zero => exact ⟨hopen, fun _ => .refl id s.tree⟩
  | succ fuel ih =>
    have hext := hlocal s hs hid
    have hr := h s hs hid hopen
    rw [turns]
    cases hrun : r s with
    | mk matched s' =>
      rw [hrun] at hext hr
      have hid' := Nat.lt_of_lt_of_le hid hext.size_le
      by_cases hon : (matched && s.cursor id < s'.cursor id) = true
      · simp only [hon, if_true]
        have hrest := extends_turns hlocal fuel (count + 1) hext.wellFormed hid'
        obtain ⟨hopen', hgains⟩ := ih (count + 1) hext.wellFormed hid' hr.1
        refine ⟨hopen', fun hfault => ?_⟩
        have hok : matched = true := (Bool.and_eq_true_iff.1 hon).1
        have hfirst := hr.2 hok (hrest.fault_eq_none hfault)
        exact hrest.gains_trans hfirst (hgains hfault) hext.wellFormed
      · simp only [hon]
        exact ⟨open_takeBack hr.1 _ _, fun _ => gains_takeBack hid hext _⟩

/-- A new child has not matched and has no children, and the node stays open. -/
theorem open_grow (ctx : Context) (c : Call) (hs : s.tree.WellFormed) (hid : id < s.tree.size)
    (hopen : s.tree.Open id) :
    (s.grow ctx id c.rule c.role).tree.Clean ∧
      ((s.grow ctx id c.rule c.role).node id).matched = false ∧
      ((s.grow ctx id c.rule c.role).node s.tree.size).matched = false ∧
      ((s.grow ctx id c.rule c.role).node s.tree.size).children = [] := by
  have hself := node_grow_self ctx c hid
  have hchild := node_grow_child ctx c hid
  have hpush : (s.tree.push (.fresh c.rule (some id) c.role (ctx.rules.rule? c.rule).isSome
      (s.cursor id))).Clean := hopen.clean.push hs rfl
  refine ⟨hpush.modify ?_ rfl, ?_, ?_, ?_⟩
  · rw [Tree.node_push_of_lt _ _ hid]
    exact hopen.unmatched
  · rw [hself]
    exact hopen.unmatched
  · rw [hchild]
    rfl
  · rw [hchild]
    rfl

theorem tidy_call (ctx : Context) {run : NodeId → Step} (c : Call)
    (hlocal : ∀ child, Local child (run child)) (h : ∀ child, Marks child (run child)) :
    Tidy id (call ctx run id c) := by
  intro s hs hid hopen
  have hgrow := extends_grow ctx c.rule c.role hs hid
  have hsize : (s.grow ctx id c.rule c.role).tree.size = s.tree.size + 1 := s.size_grow ctx id _ _
  have hself := node_grow_self ctx c hid
  obtain ⟨hclean, hnode, hchild, hnil⟩ := open_grow ctx c hs hid hopen
  have hext := hlocal s.tree.size _ hgrow.wellFormed (by omega)
  obtain ⟨hclean', hmark⟩ := h s.tree.size _ hgrow.wellFormed (by omega) ⟨hclean, hchild⟩ hnil
  unfold call
  cases hrun : run s.tree.size (s.grow ctx id c.rule c.role) with
  | mk ok s' =>
    rw [hrun] at hext hclean' hmark
    have hkept : s'.node id = (s.grow ctx id c.rule c.role).node id :=
      hext.node_eq id (by omega) (Nat.ne_of_lt hid)
    have hopen' : s'.tree.Open id := ⟨hclean', (congrArg Node.matched hkept).trans hnode⟩
    cases ok with
    | false =>
      exact ⟨hopen'.modify (Node.matched_missed ctx.source c _),
        fun hok => absurd hok Bool.false_ne_true⟩
    | true =>
      refine ⟨open_moveTo hopen' _, fun _ _ d hd => ?_⟩
      have hmem : d ∈ (s'.node id).children := (node_moveTo s' id _ id).1 ▸ hd
      rw [hkept, hself] at hmem
      refine (List.mem_append.1 hmem).imp_right fun hnew => ?_
      rw [List.mem_singleton.1 hnew]
      exact (node_moveTo s' id _ s.tree.size).2.trans hmark

end Tidy

end Step

theorem Expr.tidy_step (ctx : Context) {left : Nat} (id : Nat)
    (h : ∀ child, Step.Marks child (ctx.attempt left child)) (e : Expr) (ht : e.Tidy ctx) :
    Step.Tidy id (e.step ctx (ctx.attempt left) id) := by
  have hlocal := fun e : Expr => e.local_step ctx id (Context.local_attempt ctx left)
  have hlocals := fun es => Expr.local_steps ctx id (Context.local_attempt ctx left) es
  induction e using Expr.induct ctx.source with
  | call c =>
    rw [c.step_body]
    exact Step.tidy_call ctx c (Context.local_attempt ctx left) h
  | seq es ih =>
    cases ht with
    | seq hes =>
      exact Step.tidy_sequence (hlocals es) (forall_mem_steps fun e he => ih e he (hes e he))
  | alt es ih =>
    cases ht with
    | alt hes =>
      exact Step.tidy_alternation (hlocals es) (forall_mem_steps fun e he => ih e he (hes e he))
  | many e ih =>
    cases ht with
    | many he =>
      intro s hs hid hopen
      obtain ⟨hopen', hgains⟩ := Step.tidy_turns (hlocal e) (ih he) _ 0 hs hid hopen
      exact ⟨hopen', fun _ => hgains⟩
  | tally e least ih =>
    cases ht with
    | tally he =>
      intro s hs hid hopen
      obtain ⟨hopen', hgains⟩ := Step.tidy_turns (hlocal e) (ih he)
        (ctx.source.size - s.cursor id + 1) 0 hs hid hopen
      exact ⟨hopen', fun _ => hgains⟩
  | counted e test ih =>
    cases ht with
    | counted he =>
      intro s hs hid hopen
      obtain ⟨hopen', hgains⟩ := Step.tidy_turns (hlocal e) (ih he)
        (ctx.source.size - s.cursor id + 1) 0 hs hid hopen
      exact ⟨hopen', fun _ => hgains⟩
  | own hown =>
    rw [hown.step_eq]
    exact Step.tidy_own hown.keeps (hown.spares (fun _ _ _ => rfl) fun _ _ => rfl)
  | probe label => exact fun s _ _ hopen => ⟨hopen, fun _ _ => .refl id s.tree⟩
  | not e ih =>
    cases ht with
    | not he hbarren => exact Step.tidy_negate (hlocal e) (ih he) (hbarren left id)
  | all es ih =>
    cases ht with
    | all hes => exact Step.tidy_all (hlocals es) (forall_mem_steps fun e he => ih e he (hes e he))
  | any es ih =>
    cases ht with
    | any hes hbarren =>
      exact Step.tidy_any (hlocals es) (forall_mem_steps fun e he => ih e he (hes e he))
        (forall_mem_steps fun e he => hbarren e he left id)
  | ifElse e yes no ihe ihyes ihno =>
    cases ht with
    | ifElse he hyes hno hbarren =>
      exact Step.tidy_ifElse (hlocal e) (hlocal yes) (hlocal no) (ihe he) (ihyes hyes) (ihno hno)
        (.inl (hbarren left id))
  | const ok => exact Step.tidy_const ok

theorem Expr.tidy_steps (ctx : Context) {left : Nat} (id : Nat)
    (h : ∀ child, Step.Marks child (ctx.attempt left child)) (es : List Expr)
    (ht : ∀ e ∈ es, e.Tidy ctx) :
    ∀ r ∈ Expr.steps ctx (ctx.attempt left) id es, Step.Tidy id r :=
  forall_mem_steps fun e he => e.tidy_step ctx id h (ht e he)

namespace Expr

variable {ctx : Context} {e : Expr}

theorem Leaf.barren (h : e.Leaf) (left : Nat) (id : Nat) :
    Step.Barren id (e.step ctx (ctx.attempt left) id) := by
  induction h with
  | byte => exact Step.barren_own id _
  | text t => exact Step.barren_own id _
  | attached => exact Step.barren_own id _
  | pattern p => exact Step.barren_own id _
  | bytes => exact Step.barren_own id _
  | look k offset => exact Step.barren_own id _
  | atEnd => exact Step.barren_own id _
  | const ok => exact fun _ _ _ => rfl
  | @all es _ ih =>
    exact Step.barren_all (local_steps ctx id (Context.local_attempt ctx left) es)
      (forall_mem_steps ih)
  | @any es _ ih =>
    exact Step.barren_any (local_steps ctx id (Context.local_attempt ctx left) es)
      (forall_mem_steps ih)
  | not _ ih => exact ih
  | @ifElse e yes no _ _ _ ih ihyes ihno =>
    have hlocal := fun e : Expr => e.local_step ctx id (Context.local_attempt ctx left)
    exact Step.barren_ifElse (hlocal e) (hlocal yes) (hlocal no) ih ihyes ihno

/-- What calls no rule makes no nodes, and may be negated. -/
theorem Leaf.tidy (h : e.Leaf) : e.Tidy ctx := by
  induction h with
  | byte => exact .byte _
  | text t => exact .text t
  | attached => exact .attached
  | pattern p => exact .pattern p
  | bytes _ least => exact .bytes _ least
  | look k offset => exact .look k offset
  | atEnd => exact .atEnd
  | const ok => exact .const ok
  | all _ ih => exact .all ih
  | any h ih => exact .any ih fun e he => (h e he).barren
  | not h ih => exact .not ih h.barren
  | ifElse h _ _ ih ihyes ihno => exact .ifElse ih ihyes ihno h.barren

theorem Composite.tidy (h : e.Composite) : e.Tidy ctx := by
  induction h with
  | ref rule => exact .ref rule
  | named rule caption => exact .named rule caption
  | lit t => exact .lit t
  | seq _ ih => exact .seq ih
  | alt _ ih => exact .alt ih
  | many _ ih => exact .many ih
  | tally _ least ih => exact .tally ih least
  | counted _ test ih => exact .counted ih test
  | all _ ih => exact .all ih
  | look k offset => exact .look k offset
  | atEnd => exact .atEnd
  | const ok => exact .const ok

end Expr

namespace Context

variable {ctx : Context} {rule : String} {p : RawParse}

/-- Rules that either take text by themselves or only call others are tidy. -/
theorem tidy_of_lexical (h : ctx.rules.Lexical) : ctx.Tidy := by
  intro name body hrule
  cases h name body hrule with
  | inl hleaf => exact hleaf.tidy
  | inr hcomposite => exact hcomposite.tidy

theorem marks_attempt (hrules : ctx.Tidy) (left : Nat) (id : Nat) :
    Step.Marks id (ctx.attempt left id) := by
  induction left generalizing id with
  | zero =>
    intro s _ _ hopen _
    rw [attempt_zero]
    split
    · exact ⟨hopen.clean, hopen.unmatched⟩
    · exact ⟨hopen.clean, hopen.unmatched⟩
  | succ left ih =>
    intro s hs hid hopen hnil
    rw [attempt_succ]
    split
    · exact ⟨hopen.clean, hopen.unmatched⟩
    split
    · rw [RunState.node, RunState.tree_noteUnresolved]
      exact ⟨hopen.clean, hopen.unmatched⟩
    · next body hbody =>
      have hext := Expr.local_step ctx id (local_attempt ctx left) body
        (s.enter id (ctx.limit - left)) hs hid
      obtain ⟨hopen', hgains⟩ := Expr.tidy_step ctx id ih body (hrules _ body hbody)
        (s.enter id (ctx.limit - left)) hs hid hopen
      generalize body.step ctx (ctx.attempt left) id (s.enter id (ctx.limit - left)) = run
        at hext hopen' hgains
      obtain ⟨ok, s'⟩ := run
      have hid' : id < s'.tree.size := Nat.lt_of_lt_of_le hid hext.size_le
      refine ⟨hopen'.clean.mark hid' hopen'.unmatched fun hmatched c hc => ?_, ?_⟩
      · obtain ⟨hok, hnone⟩ := Bool.and_eq_true_iff.1 hmatched
        refine (hgains hok (Option.isNone_iff_eq_none.1 hnone) c hc).resolve_left fun hold => ?_
        have hnone : c ∈ (s.node id).children := hold
        rw [hnil] at hnone
        cases hnone
      · exact congrArg Node.matched (RunState.node_modify_self s' _ hid')

/-- Where bodies go on after a failure only if what failed made no nodes, everything below a node
that matched has matched too, so a run is valid exactly if the rule of its root matched. -/
theorem matched_of_mem_descendants (hrules : ctx.Tidy) (h : ctx.rawParse rule = .ok p) :
    (∀ n, (p.tree.node n).matched = true → ∀ d ∈ p.tree.descendants n,
      (p.tree.node d).matched = true) ∧
    p.valid = (p.tree.node Tree.root).matched ∧
    p.valid = (ctx.attempt ctx.limit Tree.root (.start ctx rule)).1 := by
  have hwf := wellFormed_of_rawParse h
  obtain ⟨ok, s, hrun, -, htree⟩ := rawParse_eq_ok h
  have hopen : (RunState.start ctx rule).tree.Open Tree.root := by
    refine ⟨fun q hq => ?_, rfl⟩
    cases q with
    | zero => cases hq
    | succ q =>
      rw [Tree.children_of_size_le (Nat.succ_le_succ (Nat.zero_le q))]
      simp
  obtain ⟨hclean, hmark⟩ := marks_attempt hrules ctx.limit Tree.root _ (wellFormed_start ctx rule)
    Nat.one_pos hopen rfl
  rw [hrun] at hclean hmark ⊢
  have hbelow : ∀ n, (p.tree.node n).matched = true → ∀ d ∈ p.tree.descendants n,
      (p.tree.node d).matched = true := by
    intro n hn d hd
    rw [htree] at hn hd hwf ⊢
    exact hclean.of_reaches hn (hwf.mem_descendants.1 hd)
  have hroot : (p.tree.node Tree.root).matched = ok := htree ▸ hmark
  have hvalid : p.valid = (p.tree.node Tree.root).matched := by
    rw [Bool.eq_iff_iff]
    constructor
    · intro hall
      exact List.all_eq_true.1 hall Tree.root (hwf.mem_descendants.2 .refl)
    · intro hmatched
      exact List.all_eq_true.2 (hbelow Tree.root hmatched)
  exact ⟨hbelow, hvalid, hvalid.trans hroot⟩

/-- The run tries percentages and calls in vain before it comes to the numbers. -/
theorem matched_of_mem_descendants_assignment : ∃ p,
    rawParse { source := .ofString "$a=1+2;", rules := Language.statements.index } "SCRIPT" = .ok p ∧
      Context.Tidy { source := .ofString "$a=1+2;", rules := Language.statements.index } ∧
      p.valid = true ∧ (List.range p.tree.size).any (fun c => !(p.tree.node c).matched) = true ∧
      ∀ n, (p.tree.node n).matched = true → ∀ d ∈ p.tree.descendants n,
        (p.tree.node d).matched = true := by
  have hrun : (rawParse { source := .ofString "$a=1+2;", rules := Language.statements.index }
      "SCRIPT").toOption.map (fun p => decide (p.valid = true ∧
        (List.range p.tree.size).any (fun c => !(p.tree.node c).matched) = true)) = some true := by
    decide +kernel
  have htidy : Context.Tidy { source := .ofString "$a=1+2;", rules := Language.statements.index } :=
    tidy_of_lexical Language.lexical_statements
  cases hp : rawParse { source := .ofString "$a=1+2;", rules := Language.statements.index }
      "SCRIPT" with
  | error e =>
    rw [hp] at hrun
    cases hrun
  | ok p =>
    rw [hp] at hrun
    obtain ⟨hvalid, hfailed⟩ := of_decide_eq_true (Option.some.inj hrun)
    exact ⟨p, rfl, htidy, hvalid, hfailed, (matched_of_mem_descendants htidy hp).1⟩

end Context

end RankedGrammar
