import RankedGrammar.Proofs.Diagnostic.Expectations
import RankedGrammar.Proofs.Match.Lexeme
import RankedGrammar.Proofs.Match.Simulation

/-!
Who expected what. Where rules report nothing by themselves, every expectation on a node was put on
record by the failure of a call, made by the node or by one below it; and every call that fails is on
record at the node that made it, unless the call was for a wrapper or the node is transient.
-/
namespace RankedGrammar

/-- The body reports nothing by itself. -/
inductive Expr.Silent : Expr → Prop where
  | ref (rule : String) : Silent (.ref rule)
  | named (rule caption : String) : Silent (.named rule caption)
  | lit (t : String) : Silent (.lit t)
  | seq {es : List Expr} (h : ∀ e ∈ es, Silent e) : Silent (.seq es)
  | alt {es : List Expr} (h : ∀ e ∈ es, Silent e) : Silent (.alt es)
  | many {e : Expr} (h : Silent e) : Silent (.many e)
  | tally {e : Expr} (h : Silent e) (least : Nat) : Silent (.tally e least)
  | counted {e : Expr} (h : Silent e) (test : Nat → Bool) : Silent (.counted e test)
  | byte (k : ByteClass) : Silent (.byte k)
  | text (t : String) : Silent (.text t)
  | attached : Silent .attached
  | pattern (p : Text.Pattern) : Silent (.pattern p)
  | bytes (k : ByteClass) (least : Nat) : Silent (.bytes k least)
  | look (k : ByteClass) (offset : Nat) : Silent (.look k offset)
  | skip (amount : Nat) : Silent (.skip amount)
  | record (t : String) : Silent (.record t)
  | atEnd : Silent .atEnd
  | probe (label : String) : Silent (.probe label)
  | not {e : Expr} (h : Silent e) : Silent (.not e)
  | all {es : List Expr} (h : ∀ e ∈ es, Silent e) : Silent (.all es)
  | any {es : List Expr} (h : ∀ e ∈ es, Silent e) : Silent (.any es)
  | ifElse {e yes no : Expr} (h : Silent e) (hyes : Silent yes) (hno : Silent no) :
      Silent (.ifElse e yes no)
  | const (ok : Bool) : Silent (.const ok)

def Context.Silent (ctx : Context) : Prop :=
  ∀ name body, ctx.rules.rule? name = some body → body.Silent

namespace Node

/-- What was expected where the node did not match; of a wrapper nothing is said. -/
def expectation? (n : Node) : Option String :=
  match n.role with
  | .plain => some n.name
  | .literal text => some (Text.quoted text)
  | _ => none

theorem has_missed {src : Source} {c : Call} {n : Node} {position : Position} {name : String} :
    (n.missed src c).expected.Has position name ↔ n.expected.Has position name ∨
      c.expectation? = some name ∧ n.role.isTransient = false ∧ src.position n.point = position := by
  unfold missed
  split
  · next other hexpect =>
    split
    · next htransient => simp [htransient]
    · next hkept =>
      simp only [expect, addExpected, Expectations.has_merge, Expectations.has_single, hexpect]
      simp [hkept, and_comm, eq_comm]
  · next hnone => simp [hnone]

end Node

namespace Tree

/-- `f` is `n` or lies below it, adopted by its parent or not. -/
abbrev Descends (t : Tree) : NodeId → NodeId → Prop :=
  Relation.ReflTransGen fun q f => (t.node f).parent = some q

/-- The node `q`, which is not transient, made the node `f` for a call that failed, so that `name`
was expected at the place where the call began. -/
structure Missed (t : Tree) (src : Source) (q f : Nat) (position : Position)
    (name : String) : Prop where
  lt_size : f < t.size
  parent : (t.node f).parent = some q
  unmatched : (t.node f).matched = false
  kept : (t.node q).role.isTransient = false
  expectation : (t.node f).expectation? = some name
  start : src.position (t.node f).start = position

/-- The node, or one below it, made a call that failed and is not still at work on `id`. -/
def Witnessed (t : Tree) (src : Source) (id n : Nat) (position : Position)
    (name : String) : Prop :=
  ∃ q f, t.Missed src q f position name ∧ t.Descends n q ∧ ¬ t.Descends f id

variable {t t' : Tree} {src : Source} {id q f : Nat} {position : Position} {name : String}

theorem Missed.congr (h : t.Missed src q f position name) (hsize : f < t'.size)
    (hcalled : t'.node f = t.node f) (hrole : (t'.node q).role = (t.node q).role) :
    t'.Missed src q f position name := by
  obtain ⟨-, hparent, hunmatched, hkept, hexpect, hstart⟩ := h
  rw [← hcalled] at hparent hunmatched hexpect hstart
  exact ⟨hsize, hparent, hunmatched, hrole ▸ hkept, hexpect, hstart⟩

/-- What is above a child is above its parent, the child itself apart. -/
theorem descends_child {a c : Nat} (hc : (t.node c).parent = some id) (h : t.Descends a c) :
    a = c ∨ t.Descends a id := by
  cases Relation.ReflTransGen.cases_tail h with
  | inl heq => exact .inl heq.symm
  | inr hstep =>
    obtain ⟨q, hbelow, hq⟩ := hstep
    exact .inr (Option.some.inj (hq.symm.trans hc) ▸ hbelow)

section Modify

variable {f : Node → Node}

theorem descends_modify (hparent : (f (t.node id)).parent = (t.node id).parent) {a b : NodeId} :
    (t.modify id f).Descends a b ↔ t.Descends a b := by
  unfold Descends
  simp only [apply_node_modify Node.parent hparent]

/-- The account of a call looks at the role of the caller alone. -/
theorem missed_modify (hrole : (f (t.node id)).role = (t.node id).role) {k : Nat} (hne : id ≠ k) :
    (t.modify id f).Missed src q k position name ↔ t.Missed src q k position name := by
  have hcalled : (t.modify id f).node k = t.node k := t.node_modify_of_ne f hne
  have hroles := apply_node_modify Node.role hrole q
  have hsize := t.size_modify id f
  exact ⟨fun h => h.congr (hsize ▸ h.lt_size) hcalled.symm hroles.symm,
    fun h => h.congr (hsize ▸ h.lt_size) hcalled hroles⟩

theorem Witnessed.modify {n : Nat} (h : t.Witnessed src id n position name)
    (hparent : (f (t.node id)).parent = (t.node id).parent)
    (hrole : (f (t.node id)).role = (t.node id).role) :
    (t.modify id f).Witnessed src id n position name := by
  obtain ⟨q, k, hmissed, hbelow, hdone⟩ := h
  have hne : id ≠ k := fun heq => hdone (heq ▸ .refl)
  exact ⟨q, k, (missed_modify hrole hne).2 hmissed, (descends_modify hparent).2 hbelow,
    fun hopen => hdone ((descends_modify hparent).1 hopen)⟩

end Modify

end Tree

namespace RunState

theorem descends_grow {s : RunState} (ctx : Context) (id : NodeId) (child : String) (role : Role)
    {a b : NodeId} (hab : s.tree.Descends a b) : (s.grow ctx id child role).tree.Descends a b :=
  Relation.ReflTransGen.mono (fun _ _ hq => (s.parent_grow ctx id child role).2 (.inl hq)) a b hab

/-- The expectations on the table are those of the calls that failed; the call that `id` stands for
and those that led to it are not yet settled. -/
structure Accounted (src : Source) (id : Nat) (s : RunState) : Prop where
  wellFormed : s.tree.WellFormed
  lt_size : id < s.tree.size
  below : ∀ {q f : Nat}, (s.node f).parent = some q → q < f
  witnessed : ∀ {n : Nat} {position name}, (s.node n).expected.Has position name →
    s.tree.Witnessed src id n position name
  recorded : ∀ {q f : Nat} {position name}, s.tree.Missed src q f position name →
    ¬ s.tree.Descends f id → (s.node q).expected.Has position name

namespace Accounted

variable {src : Source} {id c : Nat} {s s' : RunState} {f : Node → Node} {position : Position}
  {name : String}

theorem le_of_descends (h : s.Accounted src id) {a b : Nat} (hab : s.tree.Descends a b) :
    a ≤ b := by
  induction hab with
  | refl => exact Nat.le_refl a
  | tail _ hq ih => exact Nat.le_trans ih (Nat.le_of_lt (h.below hq))

theorem congr (h : s.Accounted src id) (htree : s'.tree = s.tree) : s'.Accounted src id := by
  obtain ⟨hwf, hlt, hbelow, hwitnessed, hrecorded⟩ := h
  unfold RunState.node at hbelow hwitnessed hrecorded
  rw [← htree] at hwf hlt hbelow hwitnessed hrecorded
  exact ⟨hwf, hlt, hbelow, hwitnessed, hrecorded⟩

/-- The account stays with a node, or passes to it from a node that it has made, when it takes on
what has been settled in between. -/
theorem handOver (h : s.Accounted src c) (hid : id < s.tree.size)
    (hwf : (s.modify id f).tree.WellFormed)
    (hparent : (f (s.node id)).parent = (s.node id).parent)
    (hrole : (f (s.node id)).role = (s.node id).role)
    (habove : ∀ {k}, s.tree.Descends k id → s.tree.Descends k c)
    (hkeep : ∀ {position name}, (s.node id).expected.Has position name →
      (f (s.node id)).expected.Has position name)
    (hnew : ∀ {position name}, (f (s.node id)).expected.Has position name →
      (s.node id).expected.Has position name ∨ s.tree.Witnessed src id id position name)
    (hsettled : ∀ {q k position name}, s.tree.Missed src q k position name →
      s.tree.Descends k c → ¬ s.tree.Descends k id →
        q = id ∧ (f (s.node id)).expected.Has position name) :
    (s.modify id f).Accounted src id := by
  have hself : (s.modify id f).node id = f (s.node id) := s.node_modify_self f hid
  have hother : ∀ {j}, id ≠ j → (s.modify id f).node j = s.node j := s.node_modify_of_ne f
  constructor
  · exact hwf
  · rw [size_modify]
    exact hid
  · intro q k hk
    exact h.below ((Tree.apply_node_modify Node.parent hparent k).symm.trans hk)
  · intro n position name hhas
    refine Tree.Witnessed.modify ?_ hparent hrole
    have hold : ∀ {n}, (s.node n).expected.Has position name →
        s.tree.Witnessed src id n position name := by
      intro n hn
      obtain ⟨q, k, hmissed, hbelow, hdone⟩ := h.witnessed hn
      exact ⟨q, k, hmissed, hbelow, fun hopen => hdone (habove hopen)⟩
    by_cases hn : id = n
    · subst hn
      rw [hself] at hhas
      exact (hnew hhas).elim hold fun hw => hw
    · rw [hother hn] at hhas
      exact hold hhas
  · intro q k position name hmissed hdone
    have hdone' : ¬ s.tree.Descends k id :=
      fun hopen => hdone ((Tree.descends_modify hparent).2 hopen)
    have hbefore : s.tree.Missed src q k position name :=
      (Tree.missed_modify hrole fun heq => hdone' (heq ▸ .refl)).1 hmissed
    by_cases hopen : s.tree.Descends k c
    · obtain ⟨rfl, hhas⟩ := hsettled hbefore hopen hdone'
      rw [hself]
      exact hhas
    · have hhas := h.recorded hbefore hopen
      by_cases hq : id = q
      · subst hq
        rw [hself]
        exact hkeep hhas
      · rw [hother hq]
        exact hhas

theorem modify (h : s.Accounted src id) (hwf : (s.modify id f).tree.WellFormed)
    (hparent : (f (s.node id)).parent = (s.node id).parent)
    (hrole : (f (s.node id)).role = (s.node id).role)
    (hexpected : (f (s.node id)).expected = (s.node id).expected) :
    (s.modify id f).Accounted src id :=
  h.handOver h.lt_size hwf hparent hrole (fun hk => hk) (fun hhas => hexpected ▸ hhas)
    (fun hhas => .inl (hexpected ▸ hhas)) fun _ hopen hdone => absurd hopen hdone

theorem moveTo (h : s.Accounted src id) (point : Nat) : (s.moveTo id point).Accounted src id :=
  h.modify (h.wellFormed.modify rfl rfl) rfl rfl rfl

theorem keepChildren (h : s.Accounted src id) (base : Nat) :
    (s.keepChildren id base).Accounted src id :=
  h.modify (h.wellFormed.sublistChildren h.lt_size rfl (List.take_sublist _ _)) rfl rfl rfl

theorem addExpected (h : s.Accounted src id) {e : Expectations}
    (he : ∀ {position name}, e.Has position name → s.tree.Witnessed src id id position name) :
    (s.addExpected id e).Accounted src id := by
  refine h.handOver h.lt_size (h.wellFormed.modify rfl rfl) rfl rfl (fun hk => hk) (fun hhas => ?_)
    (fun hhas => ?_) fun _ hopen hdone => absurd hopen hdone
  · exact Expectations.has_merge.2 (.inl hhas)
  · exact (Expectations.has_merge.1 hhas).imp_right he

/-- What a child, or a node that belongs to it, expected was expected below the node. -/
theorem witnessed_of_reaches (h : s.Accounted src id) {k d : NodeId}
    (hparent : (s.node k).parent = some id) (hd : s.tree.Reaches k d)
    (hhas : (s.node d).expected.Has position name) :
    s.tree.Witnessed src id id position name := by
  obtain ⟨q, f, hmissed, hbelow, hdone⟩ := h.witnessed hhas
  have hdown : s.tree.Descends k d :=
    Relation.ReflTransGen.mono (fun _ _ => h.wellFormed.parent_eq) _ _ hd
  exact ⟨q, f, hmissed, .head hparent (hdown.trans hbelow), hdone⟩

section Grow

variable (ctx : Context) (child : String) (role : Role) {a b q k : Nat}

theorem descends_of_grow (h : s.Accounted src id)
    (hab : (s.grow ctx id child role).tree.Descends a b) (hb : b < s.tree.size) :
    s.tree.Descends a b := by
  induction hab with
  | refl => exact .refl
  | tail _ hq ih =>
    rcases (s.parent_grow ctx id child role).1 hq with hold | ⟨rfl, -⟩
    · exact .tail (ih (Nat.lt_trans (h.below hold) hb)) hold
    · exact absurd hb (Nat.lt_irrefl _)

/-- Of the nodes that were there, those that wait for the new child are those that wait for its
parent. -/
theorem descends_grow_size (h : s.Accounted src id) (hk : k < s.tree.size) :
    (s.grow ctx id child role).tree.Descends k s.tree.size ↔ s.tree.Descends k id := by
  have hcalled := (s.parent_grow ctx id child role).2 (.inr ⟨rfl, rfl⟩)
  refine ⟨fun hd => ?_, fun hd => .tail (descends_grow ctx id child role hd) hcalled⟩
  cases Tree.descends_child hcalled hd with
  | inl heq => exact absurd heq (Nat.ne_of_lt hk)
  | inr habove => exact h.descends_of_grow ctx child role habove h.lt_size

theorem missed_grow (h : s.Accounted src id) (hk : k < s.tree.size) (hne : id ≠ k) :
    (s.grow ctx id child role).tree.Missed src q k position name ↔
      s.tree.Missed src q k position name := by
  have hcalled := s.node_grow_of_ne ctx child role hne hk
  have hroles : (s.node k).parent = some q →
      ((s.grow ctx id child role).node q).role = (s.node q).role := fun hq =>
    s.apply_node_grow ctx id child role (fun _ _ => rfl) (Nat.lt_trans (h.below hq) hk)
  constructor
  · intro hmissed
    have hparent : (s.node k).parent = some q := hcalled ▸ hmissed.parent
    exact hmissed.congr hk hcalled.symm (hroles hparent).symm
  · intro hmissed
    refine hmissed.congr ?_ hcalled (hroles hmissed.parent)
    rw [size_grow]
    exact Nat.lt_succ_of_lt hk

theorem grow (h : s.Accounted src id) : (s.grow ctx id child role).Accounted src s.tree.size := by
  have hexpected : ∀ n, ((s.grow ctx id child role).node n).expected = (s.node n).expected :=
    s.apply_node_grow_of_fresh ctx id child role (fun _ _ => rfl) rfl
  -- the calls that were settled stay so, and they are none of the parent
  have hne : ∀ {k}, ¬ s.tree.Descends k id → id ≠ k := fun hdone heq => hdone (heq ▸ .refl)
  constructor
  · exact (Step.extends_grow ctx child role h.wellFormed h.lt_size).wellFormed
  · rw [size_grow]
    exact Nat.lt_succ_self _
  · intro q k hq
    rcases (s.parent_grow ctx id child role).1 hq with hold | ⟨rfl, rfl⟩
    · exact h.below hold
    · exact h.lt_size
  · intro n position name hhas
    rw [hexpected] at hhas
    obtain ⟨q, k, hmissed, hbelow, hdone⟩ := h.witnessed hhas
    exact ⟨q, k, (h.missed_grow ctx child role hmissed.lt_size (hne hdone)).2 hmissed,
      descends_grow ctx id child role hbelow,
      fun hopen => hdone ((h.descends_grow_size ctx child role hmissed.lt_size).1 hopen)⟩
  · intro q k position name hmissed hdone
    have hk : k < s.tree.size := by
      rcases (s.parent_grow ctx id child role).1 hmissed.parent with hold | ⟨rfl, -⟩
      · exact Tree.lt_size_of_parent hold
      · exact absurd .refl hdone
    have hdone' : ¬ s.tree.Descends k id :=
      fun hopen => hdone ((h.descends_grow_size ctx child role hk).2 hopen)
    rw [hexpected]
    exact h.recorded ((h.missed_grow ctx child role hk (hne hdone')).1 hmissed) hdone'

end Grow

end Accounted

end RunState

namespace Step

/-- At work on its node, the step keeps the account and says in the end whether the node matched. -/
structure Accounts (src : Source) (id : Nat) (r : Step) : Prop where
  work : Local id r
  keeps : Keeps (RunState.Accounted src id) r
  answer : ∀ s : RunState, s.tree.WellFormed → id < s.tree.size → (s.node id).matched = false →
    ((r s).2.node id).matched = (r s).1

section Accounted

variable {src : Source} {id : Nat} {r : Step} {rs : List Step} {s : RunState}

theorem accounted_own {f : Terminal} (hkeeps : f.Keeps) (hquiet : f.Spares Node.expected) :
    Keeps (RunState.Accounted src id) (own id f) := by
  intro s hs
  obtain ⟨horigin, hchildren⟩ := hkeeps (s.node id)
  exact hs.modify (hs.wellFormed.modify horigin.parent hchildren) horigin.parent horigin.role
    (hquiet (s.node id))

theorem accounted_sequence (h : ∀ r ∈ rs, Keeps (RunState.Accounted src id) r) :
    Keeps (RunState.Accounted src id) (sequence id rs) :=
  keeps_sequence (fun _ _ _ hs => hs.moveTo _) h

theorem accounted_trials (h : ∀ r ∈ rs, Keeps (RunState.Accounted src id) r) (point base : Nat)
    (hs : s.Accounted src id) : (trials id point base rs s).2.Accounted src id :=
  keeps_trials (fun _ hs => hs.moveTo point) (fun _ hs => hs.keepChildren base) h hs

/-- What an alternation that fails takes on was expected by the children of its candidates. -/
theorem accounted_settle {s' : RunState} {ts : List (Trial NodeId)} (point : Nat)
    (hs : s.tree.WellFormed) (hid : id < s.tree.size) (hext : s.Extends id s')
    (hs' : s'.Accounted src id) (hsame : (s'.node id).children = (s.node id).children)
    (hfits : ∀ t ∈ ts, t.Fits id s s') : (settle id point (ts, s')).2.Accounted src id := by
  have hmove : s'.Extends id (s'.moveTo id point) :=
    (RunState.Extends.refl hs'.wellFormed).moveTo hs'.lt_size point
  have hmoved := hs'.moveTo point
  simp only [settle]
  split
  · exact hmoved
  split
  · next best hbest =>
    have hfit := hfits best.trial (mem_of_ranked (mem_of_heaviest hbest)).1
    have hchildren : ((s'.moveTo id point).node id).children = (s.node id).children :=
      (Tree.apply_node_modify Node.children rfl id).trans hsame
    have hadd := extends_adopt hs hid (hext.trans hid hmove) hchildren (hfit.later hid hmove)
    have hadopted := hmoved.modify hadd.wellFormed rfl rfl rfl
    exact RunState.Accounted.congr (hadopted.moveTo best.trial.point) rfl
  · refine hmoved.addExpected fun hhas => ?_
    obtain ⟨c, hc, d, hd, hexpected⟩ := (RunState.has_expectedOf hmoved.wellFormed).1 hhas
    obtain ⟨t, ht, hct⟩ := List.mem_flatMap.1 hc
    exact hmoved.witnessed_of_reaches (((hfits t ht).later hid hmove).new c hct).2.2 hd hexpected

theorem accounted_alternation (hlocal : ∀ r ∈ rs, Local id r)
    (h : ∀ r ∈ rs, Keeps (RunState.Accounted src id) r) :
    Keeps (RunState.Accounted src id) (alternation id rs) := by
  intro s hs
  have hnoted : s.noteAlternation.Accounted src id := hs.congr rfl
  obtain ⟨hext, hsame, hfits⟩ :=
    trials_spec hlocal (s.cursor id) hnoted.wellFormed hnoted.lt_size rfl
  exact accounted_settle (s.cursor id) hnoted.wellFormed hnoted.lt_size hext
    (accounted_trials h _ _ hnoted) hsame hfits

theorem accounted_takeBack (hs : s.Accounted src id) (point base : Nat) :
    (takeBack id point base s).Accounted src id := by
  refine RunState.Accounted.moveTo (RunState.Accounted.addExpected (hs.keepChildren base)
    fun hhas => ?_) point
  obtain ⟨c, hc, d, hd, hexpected⟩ := (RunState.has_expectedOf hs.wellFormed).1 hhas
  have hparent := hs.wellFormed.parent_eq (List.mem_of_mem_drop hc)
  exact Tree.Witnessed.modify (hs.witnessed_of_reaches hparent hd hexpected) rfl rfl

theorem accounted_turns (h : Keeps (RunState.Accounted src id) r) (fuel count : Nat)
    (hs : s.Accounted src id) : (turns id r fuel count s).2.Accounted src id :=
  keeps_turns (P := RunState.Accounted src id)
    (fun point base _ hs => accounted_takeBack hs point base) h fuel count hs

theorem accounted_call {ctx : Context} {run : NodeId → Step} (c : Call)
    (h : ∀ child : Nat, Accounts ctx.source child (run child)) :
    Keeps (RunState.Accounted ctx.source id) (call ctx run id c) := by
  intro s hs
  have hgrow := hs.grow ctx c.rule c.role
  have hself := node_grow_self ctx c hs.lt_size
  have hchild := node_grow_child ctx c hs.lt_size
  have hext := (h s.tree.size).work _ hgrow.wellFormed hgrow.lt_size
  have hrun := (h s.tree.size).keeps _ hgrow
  have hanswer := (h s.tree.size).answer _ hgrow.wellFormed hgrow.lt_size (by rw [hchild]; rfl)
  have hkept := hext.node_eq id (Nat.lt_trans hs.lt_size hgrow.lt_size) (Nat.ne_of_lt hs.lt_size)
  have horigin := hext.origin
  rw [hself] at hkept
  rw [hchild] at horigin
  unfold call
  generalize run s.tree.size (s.grow ctx id c.rule c.role) = out
    at hext hrun hanswer hkept horigin ⊢
  obtain ⟨ok, s'⟩ := out
  dsimp only at hext hrun hanswer hkept horigin ⊢
  have hparent : (s'.node s.tree.size).parent = some id := horigin.parent
  have hid : id < s'.tree.size := Nat.lt_trans hs.lt_size hrun.lt_size
  have habove : ∀ {k : Nat}, s'.tree.Descends k id → s'.tree.Descends k s.tree.size :=
    fun hk => .tail hk hparent
  -- of the calls that are settled now the new one is the only one that was not settled before
  have hlast : ∀ {k : Nat}, s'.tree.Descends k s.tree.size → ¬ s'.tree.Descends k id →
      k = s.tree.size := fun hopen hdone => (Tree.descends_child hparent hopen).resolve_right hdone
  cases ok with
  | true =>
    refine hrun.handOver hid (hrun.wellFormed.modify rfl rfl) rfl rfl habove (fun hhas => hhas)
      (fun hhas => .inl hhas) fun hmissed hopen hdone => ?_
    have hunmatched := hmissed.unmatched
    rw [hlast hopen hdone] at hunmatched
    exact absurd (hanswer.symm.trans hunmatched) (by decide)
  | false =>
    obtain ⟨hsame, hchildren⟩ := Node.keeps_missed ctx.source c (s'.node id)
    have hexpectation : (s'.node s.tree.size).expectation? = c.expectation? := by
      unfold Node.expectation?
      rw [horigin.role, horigin.name]
      cases c <;> rfl
    have hstart : ctx.source.position (s'.node s.tree.size).start =
        ctx.source.position (s'.node id).point := by
      rw [horigin.start, hkept]
      rfl
    refine hrun.handOver hid (hrun.wellFormed.modify hsame.parent hchildren) hsame.parent hsame.role
      habove (fun hhas => Node.has_missed.2 (.inl hhas)) (fun hhas => ?_)
      fun hmissed hopen hdone => ?_
    · refine (Node.has_missed.1 hhas).imp_right fun ⟨hexpect, hkept', hposition⟩ => ?_
      refine ⟨id, s.tree.size, ⟨hrun.lt_size, hparent, hanswer, hkept',
        hexpectation.trans hexpect, hstart.trans hposition⟩, .refl, fun hopen => ?_⟩
      have hle := hrun.le_of_descends hopen
      have hlt := hs.lt_size
      omega
    · have hk := hlast hopen hdone
      subst hk
      obtain rfl : _ = id := Option.some.inj (hmissed.parent.symm.trans hparent)
      have hname := hexpectation.symm.trans hmissed.expectation
      have hplace := hstart.symm.trans hmissed.start
      exact ⟨rfl, Node.has_missed.2 (.inr ⟨hname, hmissed.kept, hplace⟩)⟩

end Accounted

end Step

theorem Expr.Own.spares_expected {src : Source} {e : Expr} {f : Terminal} (h : e.Own src f)
    (hsilent : e.Silent) : f.Spares Node.expected := by
  obtain hspares | ⟨name, rfl, -⟩ := h.spares_or (g := Node.expected) fun _ _ _ => rfl
  · exact hspares
  · cases hsilent

theorem Expr.accounted_step {ctx : Context} {run : NodeId → Step} (id : Nat)
    (h : ∀ child : Nat, Step.Accounts ctx.source child (run child)) (e : Expr) (hs : e.Silent) :
    Step.Keeps (RunState.Accounted ctx.source id) (e.step ctx run id) := by
  induction e using Expr.induct ctx.source with
  | call c =>
    rw [c.step_body]
    exact Step.accounted_call c h
  | seq es ih =>
    cases hs with
    | seq hes => exact Step.accounted_sequence (forall_mem_steps fun e he => ih e he (hes e he))
  | alt es ih =>
    cases hs with
    | alt hes =>
      exact Step.accounted_alternation (local_steps ctx id (fun child => (h child).work) es)
        (forall_mem_steps fun e he => ih e he (hes e he))
  | many e ih =>
    cases hs with
    | many he => exact fun _ hstart => Step.accounted_turns (ih he) _ 0 hstart
  | tally e least ih =>
    cases hs with
    | tally he =>
      intro s hstart
      exact (Step.accounted_turns (ih he) (ctx.source.size - s.cursor id + 1) 0 hstart).congr rfl
  | counted e test ih =>
    cases hs with
    | counted he =>
      exact fun s hstart =>
        Step.accounted_turns (ih he) (ctx.source.size - s.cursor id + 1) 0 hstart
  | own hown =>
    rw [hown.step_eq]
    exact Step.accounted_own hown.keeps (hown.spares_expected hs)
  | probe label => exact fun _ hstart => hstart.congr rfl
  | not e ih =>
    cases hs with
    | not he => exact ih he
  | all es ih =>
    cases hs with
    | all hes => exact Step.keeps_all (forall_mem_steps fun e he => ih e he (hes e he))
  | any es ih =>
    cases hs with
    | any hes => exact Step.keeps_any (forall_mem_steps fun e he => ih e he (hes e he))
  | ifElse e yes no ihe ihyes ihno =>
    cases hs with
    | ifElse he hyes hno => exact Step.keeps_ifElse (ihe he) (ihyes hyes) (ihno hno)
  | const ok => exact fun _ hstart => hstart

namespace Expr

variable {e : Expr}

theorem Leaf.silent (h : e.Leaf) : e.Silent := by
  induction h with
  | byte => exact .byte _
  | text t => exact .text t
  | attached => exact .attached
  | pattern p => exact .pattern p
  | bytes _ least => exact .bytes _ least
  | look k offset => exact .look k offset
  | atEnd => exact .atEnd
  | const ok => exact .const ok
  | all _ ih => exact .all ih
  | any _ ih => exact .any ih
  | not _ ih => exact .not ih
  | ifElse _ _ _ ih ihyes ihno => exact .ifElse ih ihyes ihno

theorem Composite.silent (h : e.Composite) : e.Silent := by
  induction h with
  | ref rule => exact .ref rule
  | named rule caption => exact .named rule caption
  | lit t => exact .lit t
  | seq _ ih => exact .seq ih
  | alt _ ih => exact .alt ih
  | many _ ih => exact .many ih
  | tally _ least ih => exact .tally ih least
  | counted _ test ih => exact .counted ih test
  | all _ ih => exact .all ih
  | look k offset => exact .look k offset
  | atEnd => exact .atEnd
  | const ok => exact .const ok

end Expr

namespace Context

variable {ctx : Context} {rule : String} {p : RawParse}

theorem silent_of_lexical (h : ctx.rules.Lexical) : ctx.Silent := by
  intro name body hrule
  cases h name body hrule with
  | inl hleaf => exact hleaf.silent
  | inr hcomposite => exact hcomposite.silent

/-- An attempt marks its node exactly if it says that the rule matched. -/
theorem matched_attempt (ctx : Context) (left : Nat) {id : Nat} {s : RunState}
    (hs : s.tree.WellFormed) (hid : id < s.tree.size) (hnew : (s.node id).matched = false) :
    ((ctx.attempt left id s).2.node id).matched = (ctx.attempt left id s).1 := by
  cases left with
  | zero =>
    rw [attempt_zero]
    split
    · exact hnew
    · exact hnew
  | succ left =>
    rw [attempt_succ]
    split
    · exact hnew
    split
    · rw [RunState.node, RunState.tree_noteUnresolved]
      exact hnew
    · next body _ =>
      have hext := Expr.local_step ctx id (local_attempt ctx left) body
        (s.enter id (ctx.limit - left)) hs hid
      generalize body.step ctx (ctx.attempt left) id (s.enter id (ctx.limit - left)) = out at hext ⊢
      obtain ⟨ok, s'⟩ := out
      exact congrArg Node.matched (s'.node_modify_self _ (Nat.lt_of_lt_of_le hid hext.size_le))

theorem accounts_attempt (hrules : ctx.Silent) (left : Nat) (id : Nat) :
    Step.Accounts ctx.source id (ctx.attempt left id) := by
  refine ⟨local_attempt ctx left id, ?_, fun s hs hid hnew => matched_attempt ctx left hs hid hnew⟩
  induction left generalizing id with
  | zero => exact keeps_attempt_zero fun hs => hs.congr
  | succ left ih =>
    exact keeps_attempt_succ (fun hs => hs.congr)
      (fun _ hs => hs.modify (hs.wellFormed.modify rfl rfl) rfl rfl rfl)
      fun name body hrule => Expr.accounted_step id (fun child => ⟨local_attempt ctx left child,
        ih child, fun s hs hid hnew => matched_attempt ctx left hs hid hnew⟩) body
          (hrules name body hrule)

theorem accounted_start (ctx : Context) (rule : String) :
    (RunState.start ctx rule).Accounted ctx.source Tree.root := by
  have hparent : ∀ {f : Nat}, ((RunState.start ctx rule).node f).parent = none := fun {f} =>
    apply_node_start Node.parent ctx rule rfl f
  have hexpected : ∀ {f : Nat}, ((RunState.start ctx rule).node f).expected = .empty := fun {f} =>
    apply_node_start Node.expected ctx rule rfl f
  constructor
  · exact wellFormed_start ctx rule
  · exact Nat.one_pos
  · intro q f hq
    exact absurd (hparent.symm.trans hq) (Option.some_ne_none q).symm
  · intro n position name hhas
    rw [hexpected] at hhas
    exact absurd hhas Expectations.has_empty
  · intro q f position name hmissed
    exact absurd (hparent.symm.trans hmissed.parent) (Option.some_ne_none q).symm

/-- Where no rule reports anything by itself, whatever a node has on record as expected was expected
by a call that failed, made by the node or by one below it, in the tree or discarded; and every call
that failed is on record at the node that made it. -/
theorem expected_iff_missed (hrules : ctx.Silent) (h : ctx.rawParse rule = .ok p) :
    (∀ n position name, (p.tree.node n).expected.Has position name →
      ∃ q f, p.tree.Missed ctx.source q f position name ∧ p.tree.Descends n q) ∧
    ∀ q f position name, p.tree.Missed ctx.source q f position name →
      (p.tree.node q).expected.Has position name := by
  obtain ⟨ok, s, hrun, -, htree⟩ := rawParse_eq_ok h
  have hend := (accounts_attempt hrules ctx.limit Tree.root).keeps _ (accounted_start ctx rule)
  rw [hrun] at hend
  rw [htree]
  constructor
  · intro n position name hhas
    obtain ⟨q, f, hmissed, hbelow, -⟩ := hend.witnessed hhas
    exact ⟨q, f, hmissed, hbelow⟩
  · intro q f position name hmissed
    refine hend.recorded hmissed fun hroot => ?_
    -- the root was made for no call
    have hlt := hend.below hmissed.parent
    have hle := hend.le_of_descends hroot
    exact absurd (Nat.lt_of_lt_of_le hlt hle) (Nat.not_lt_zero q)

/-- An assignment without a value: an expression is on record where it could have begun. -/
theorem expected_iff_missed_assignment :
    let ctx : Context := { source := .ofString "$a=;", rules := Language.statements.index }
    ∃ p, ctx.Silent ∧ ctx.rawParse "SCRIPT" = .ok p ∧
      "EXPRESSION" ∈ (p.tree.expected Tree.root).namesAt ⟨1, 3⟩ ∧
      (∀ n position name, (p.tree.node n).expected.Has position name →
        ∃ q f, p.tree.Missed ctx.source q f position name ∧ p.tree.Descends n q) ∧
      ∀ q f position name, p.tree.Missed ctx.source q f position name →
        (p.tree.node q).expected.Has position name := by
  intro ctx
  have hrules : ctx.Silent := silent_of_lexical Language.lexical_statements
  have hrun : (ctx.rawParse "SCRIPT").toOption.map (fun p =>
      decide ("EXPRESSION" ∈ (p.tree.expected Tree.root).namesAt ⟨1, 3⟩)) = some true := by
    decide +kernel
  cases hp : ctx.rawParse "SCRIPT" with
  | error e =>
    rw [hp] at hrun
    cases hrun
  | ok p =>
    rw [hp] at hrun
    exact ⟨p, hrules, rfl, of_decide_eq_true (Option.some.inj hrun), expected_iff_missed hrules hp⟩

end Context

end RankedGrammar
