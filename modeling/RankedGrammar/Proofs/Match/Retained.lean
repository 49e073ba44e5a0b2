import Mathlib.Data.Set.Lattice
import RankedGrammar.Proofs.Match.Repeated

/-!
What becomes of the expectations of failed attempts. A node never loses what it has recorded as
expected, and what is cut off below it hands on to the node all that was expected there. So nothing
that was expected is lost when an alternation, a turn of a repetition or a sequence fails.
-/
namespace RankedGrammar

/-- The names with the places where they were recorded. -/
def Expectations.mentions (e : Expectations) : Set (Position × String) := {x | e.Has x.1 x.2}

theorem Expectations.mem_mentions {e : Expectations} {position : Position} {name : String} :
    (position, name) ∈ e.mentions ↔ ∃ x ∈ e.entries, x.position = position ∧ name ∈ x.names :=
  Iff.rfl

@[simp] theorem Expectations.mentions_merge (e e' : Expectations) :
    (e.merge e').mentions = e.mentions ∪ e'.mentions := by
  ext x
  simp [mentions]

/-- What is expected at a node or below it is what the node itself or one of its children expects.
-/
theorem Tree.WellFormed.mentions_expected {t : Tree} (h : t.WellFormed) (id : NodeId) :
    (t.expected id).mentions = (t.node id).expected.mentions ∪
      ⋃ c ∈ (t.node id).children, (t.expected c).mentions := by
  ext ⟨position, name⟩
  simp only [Expectations.mentions, Set.mem_ofPred_eq, Set.mem_union, Set.mem_iUnion, exists_prop,
    h.has_expected]
  constructor
  · rintro ⟨d, hd, hhas⟩
    obtain rfl | ⟨c, hc, hreach⟩ := Relation.ReflTransGen.cases_head hd
    · exact .inl hhas
    · exact .inr ⟨c, hc, d, hreach, hhas⟩
  · rintro (hhas | ⟨c, hc, d, hreach, hhas⟩)
    · exact ⟨id, .refl, hhas⟩
    · exact ⟨d, .head hc hreach, hhas⟩

namespace RunState

variable {id c : Nat} {s s' : RunState}

theorem mentions_expectedOf (s : RunState) (ids : List NodeId) :
    (s.expectedOf ids).mentions = ⋃ c ∈ ids, (s.tree.expected c).mentions := by
  ext x
  simp [Expectations.mentions, expectedOf, Expectations.has_foldl_merge]

/-- Work on a node leaves what is expected below it in the nodes that were there. -/
theorem Extends.expected_eq (h : s.Extends id s') (hs : s.tree.WellFormed) (hc : id < c)
    (hlt : c < s.tree.size) : s'.tree.expected c = s.tree.expected c := by
  rw [h.wellFormed.expected_eq, hs.expected_eq, Function.comp_apply, Function.comp_apply,
    h.sprout_eq hs hc hlt]

/-- What the children that the node had expect is the same wherever the work on it has come to. -/
theorem Extends.expected_children (h : s.Extends id s') (hs : s.tree.WellFormed) :
    (⋃ c ∈ (s.node id).children, (s'.tree.expected c).mentions) =
      ⋃ c ∈ (s.node id).children, (s.tree.expected c).mentions :=
  Set.iUnion₂_congr fun _ hc =>
    congrArg Expectations.mentions (h.expected_eq hs (hs.lt_of_mem hc) (hs.lt_size hc))

/-- What a node expects after some work: what it has recorded itself, and what is below the children
that it had and those that it has got. -/
theorem Extends.mentions_expected (h : s.Extends id s') (hs : s.tree.WellFormed) :
    (s'.tree.expected id).mentions = (s'.node id).expected.mentions ∪
      ((⋃ c ∈ (s.node id).children, (s.tree.expected c).mentions) ∪
        ⋃ c ∈ s'.childrenFrom id (s.node id).children.length, (s'.tree.expected c).mentions) := by
  have hchildren : (s'.tree.node id).children =
      (s.node id).children ++ s'.childrenFrom id (s.node id).children.length :=
    (h.childrenFrom rfl).1
  rw [h.wellFormed.mentions_expected, hchildren, ← h.expected_children hs]
  congr 1
  ext x
  simp only [Set.mem_iUnion, List.mem_append, Set.mem_union, exists_prop, or_and_right, exists_or]

end RunState

namespace Terminal

def Retains (f : Terminal) : Prop := ∀ n, n.expected.mentions ⊆ (f n).2.expected.mentions

theorem Spares.retains {f : Terminal} (h : f.Spares Node.expected) : f.Retains :=
  fun n => (congrArg Expectations.mentions (h n)).symm.subset

theorem retains_expect (src : Source) (name : String) : (expect src name).Retains := by
  intro n
  unfold expect Node.expect Node.addExpected
  simp

end Terminal

theorem Node.retains_missed (src : Source) (c : Call) (n : Node) :
    n.expected.mentions ⊆ (n.missed src c).expected.mentions := by
  unfold missed
  split
  · split
    · exact Set.Subset.rfl
    · exact Terminal.retains_expect src _ n
  · exact Set.Subset.rfl

namespace Growth

/-- The growth forgets nothing that the node at the bottom expects. -/
def Retains (g : Growth) : Prop :=
  ∀ b ok c, g b = some (ok, c) → b.label.expected.mentions ⊆ c.label.expected.mentions

variable {g : Growth} {gs : List Growth} {b b' : Sprout}

theorem retains_const (ok : Bool) : Retains (const ok) := by
  intro b ok' c hrun
  cases hrun
  exact Set.Subset.rfl

theorem retains_own {f : Terminal} (hf : f.Retains) : Retains (own f) := by
  intro b ok c hrun
  cases hrun
  exact hf b.label

theorem retains_ifElse {yes no : Growth} (h : Retains g) (hyes : Retains yes) (hno : Retains no) :
    Retains (ifElse g yes no) := by
  intro b ok c hrun
  obtain ⟨b₁, hfirst, hrest⟩ | ⟨b₁, hfirst, hrest⟩ := exists_of_ifElse hrun
  · exact (h b _ b₁ hfirst).trans (hyes b₁ ok c hrest)
  · exact (h b _ b₁ hfirst).trans (hno b₁ ok c hrest)

theorem retains_all (h : ∀ g ∈ gs, Retains g) : Retains (all gs) := by
  induction gs with
  | nil => exact retains_const true
  | cons g gs ih =>
    obtain ⟨hg, hgs⟩ := List.forall_mem_cons.1 h
    exact retains_ifElse hg (ih hgs) (retains_const false)

theorem retains_any (h : ∀ g ∈ gs, Retains g) : Retains (any gs) := by
  induction gs with
  | nil => exact retains_const false
  | cons g gs ih =>
    obtain ⟨hg, hgs⟩ := List.forall_mem_cons.1 h
    exact retains_ifElse hg (retains_const true) (ih hgs)

theorem retains_negate (h : Retains g) : Retains (negate g) := by
  rw [negate_eq]
  exact retains_ifElse h (retains_const false) (retains_const true)

theorem retains_sequence (h : ∀ g ∈ gs, Retains g) : Retains (sequence gs) := by
  intro b ok c hrun
  obtain ⟨b₁, hall, rfl⟩ := exists_of_sequence hrun
  have hkept := retains_all h b ok b₁ hall
  cases ok with
  | true => exact hkept
  | false => exact hkept

theorem retains_alternation (h : ∀ g ∈ gs, Retains g) : Retains (alternation gs) := by
  intro b ok c hrun x hx
  obtain ⟨ts, b₁, htrials, hsettle⟩ := exists_of_alternation hrun
  obtain ⟨hkept, -, -⟩ : x ∈ b₁.label.expected.mentions ∧ _ :=
    tried_of_trials (P := fun b : Sprout => x ∈ b.label.expected.mentions) (fun _ hb => hb)
      (fun g hg b ok b' _ hb hrun => h g hg b ok b' hrun hb) hx htrials
  obtain ⟨t, -, -, -, rfl⟩ | ⟨-, rfl⟩ := exists_of_settle hsettle
  · exact hkept
  · simp [Node.addExpected, hkept]

theorem retains_turns (h : Retains g) {fuel count count' : Nat}
    (hrun : turns g fuel count b = some (count', b')) :
    b.label.expected.mentions ⊆ b'.label.expected.mentions := by
  induction fuel generalizing count b with
  | zero =>
    cases hrun
    exact Set.Subset.rfl
  | succ fuel ih =>
    obtain ⟨matched, b₁, hturn, ⟨-, -, hrest⟩ | ⟨-, rfl⟩⟩ := exists_of_turns hrun
    · exact (h b matched b₁ hturn).trans (ih hrest)
    · have hkept := h b matched b₁ hturn
      simp only [takeBack, Branch.label_mk, Node.addExpected, Expectations.mentions_merge]
      exact hkept.trans Set.subset_union_left

theorem retains_counted (src : Source) (test : Nat → Bool) (h : Retains g) :
    Retains (counted src test g) := by
  intro b ok c hrun
  obtain ⟨count, -, hturns⟩ := exists_of_counted hrun
  exact retains_turns h hturns

theorem retains_call (ctx : Context) (grow : Growth) (c : Call) : Retains (call ctx grow c) := by
  intro b ok b' hrun
  obtain ⟨child, -, rfl⟩ := exists_of_call hrun
  cases ok with
  | true => exact Set.Subset.rfl
  | false => exact Node.retains_missed ctx.source c b.label

end Growth

theorem Expr.Own.retains {src : Source} {e : Expr} {f : Terminal} (h : e.Own src f) :
    f.Retains := by
  obtain hspares | ⟨name, -, rfl⟩ := h.spares_or (g := Node.expected) fun _ _ _ => rfl
  · exact hspares.retains
  · exact Terminal.retains_expect src name

theorem Expr.retains_growth (ctx : Context) (grow : Growth) (e : Expr) :
    Growth.Retains (e.growth ctx grow) := by
  induction e using Expr.induct ctx.source with
  | call c =>
    rw [c.growth_body]
    exact Growth.retains_call ctx grow c
  | seq es ih => exact Growth.retains_sequence (forall_mem_growths ih)
  | alt es ih => exact Growth.retains_alternation (forall_mem_growths ih)
  | many e ih => exact Growth.retains_counted ctx.source _ ih
  | tally e least ih => exact Growth.retains_counted ctx.source _ ih
  | counted e test ih => exact Growth.retains_counted ctx.source test ih
  | own hown =>
    rw [hown.growth_eq]
    exact Growth.retains_own hown.retains
  | probe label => exact Growth.retains_const true
  | not e ih => exact Growth.retains_negate ih
  | all es ih => exact Growth.retains_all (forall_mem_growths ih)
  | any es ih => exact Growth.retains_any (forall_mem_growths ih)
  | ifElse e yes no ihe ihyes ihno => exact Growth.retains_ifElse ihe ihyes ihno
  | const ok => exact Growth.retains_const ok

theorem Expr.retains_growths (ctx : Context) (grow : Growth) (es : List Expr) :
    ∀ g ∈ Expr.growths ctx grow es, Growth.Retains g :=
  forall_mem_growths fun e _ => e.retains_growth ctx grow

namespace Step

variable {id : Nat} {r : Step} {rs : List Step} {g : Growth} {gs : List Growth} {s s' : RunState}

theorem Simulates.retains (h : Simulates id r g) (hg : g.Retains) (hs : s.tree.WellFormed)
    (hid : id < s.tree.size) (hfault : (r s).2.fault = none) :
    (s.node id).expected.mentions ⊆ ((r s).2.node id).expected.mentions := by
  have hshows : s.Shows id (s.tree.sprout id) :=
    ⟨hs, hid, (h.local_step s hs hid).fault_eq_none hfault, rfl⟩
  obtain ⟨ok, c, hrun, -, hshows'⟩ := h.exists_of_fault hshows hfault
  have hkept := hg _ ok c hrun
  rw [hshows.label, hshows'.label] at hkept
  exact hkept

/-- What is below children that are cut off is expected at the node itself. -/
theorem mentions_takeBack (point : Nat) (hs : s.tree.WellFormed) (hid : id < s.tree.size)
    (h : s.Extends id s') :
    ((takeBack id point (s.node id).children.length s').tree.expected id).mentions =
      (s'.tree.expected id).mentions := by
  obtain ⟨hback, hchildren, -⟩ := takeBack_spec point hs hid h
  have hid' := Nat.lt_of_lt_of_le hid h.size_le
  generalize hbase : (s.node id).children.length = base at *
  -- of the three changes to the node only the second is to what it expects
  have hown : ((takeBack id point base s').node id).expected =
      (s'.node id).expected.merge (s'.expectedOf (s'.childrenFrom id base)) := by
    refine (Tree.apply_node_modify Node.expected rfl id).trans ?_
    have hkept : ((s'.keepChildren id base).node id).expected = (s'.node id).expected :=
      Tree.apply_node_modify Node.expected rfl id
    rw [← hkept]
    refine congrArg Node.expected (RunState.node_modify_self _ _ ?_)
    rw [RunState.keepChildren, RunState.size_modify]
    exact hid'
  have hnone : (takeBack id point base s').childrenFrom id base = [] := by
    rw [RunState.childrenFrom, hchildren, ← hbase, List.drop_length]
  have hafter := hback.mentions_expected hs
  have hbefore := h.mentions_expected hs
  rw [hbase] at hafter hbefore
  rw [hafter, hbefore, hnone, hown]
  simp only [Expectations.mentions_merge, s'.mentions_expectedOf, List.not_mem_nil,
    Set.iUnion_of_empty, Set.iUnion_empty, Set.union_empty, Set.union_assoc]
  rw [Set.union_comm (⋃ c ∈ s'.childrenFrom id base, _)]

theorem biUnion_flatMap {α β γ : Type} (f : α → List β) (g : β → Set γ) (xs : List α) :
    (⋃ c ∈ xs.flatMap f, g c) = ⋃ x ∈ xs, ⋃ c ∈ f x, g c := by
  ext y
  simp only [Set.mem_iUnion, List.mem_flatMap, exists_prop]
  constructor
  · rintro ⟨c, ⟨x, hx, hc⟩, hy⟩
    exact ⟨x, hx, c, hc, hy⟩
  · rintro ⟨x, hx, c, hc, hy⟩
    exact ⟨c, ⟨x, hx, hc⟩, hy⟩

/-- The state in which an alternation runs candidate `i`. -/
def inTurn (id : NodeId) (rs : List Step) (s : RunState) (i : Nat) : RunState :=
  (tried id rs s i).moveTo id (s.cursor id)

section Candidates

variable {i : Nat}

/-- After its turn a candidate is cut off, and its trial says what it has made. -/
theorem tried_succ_inTurn (id : NodeId) (s : RunState) (hr : rs[i]? = some r) :
    tried id rs s (i + 1) =
        (r (inTurn id rs s i)).2.keepChildren id (s.node id).children.length ∧
      (contest id rs s)[i]? = some ⟨(r (inTurn id rs s i)).1, (r (inTurn id rs s i)).2.cursor id,
        (r (inTurn id rs s i)).2.childrenFrom id (s.node id).children.length⟩ := by
  obtain ⟨hi, rfl⟩ := List.getElem?_eq_some_iff.1 hr
  rw [tried_succ id s hi, getElem?_contest id s hi, trials_cons]
  exact ⟨rfl, rfl⟩

/-- To have its children cut off changes nothing in what the node has recorded. -/
theorem expected_tried_succ (id : NodeId) (s : RunState) (hr : rs[i]? = some r) :
    ((tried id rs s (i + 1)).node id).expected =
      ((r (inTurn id rs s i)).2.node id).expected := by
  rw [(tried_succ_inTurn id s hr).1]
  exact Tree.apply_node_modify Node.expected rfl id

theorem exists_turn {t : Trial NodeId} (ht : (contest id rs s)[i]? = some t) :
    ∃ r, rs[i]? = some r ∧ t = ⟨(r (inTurn id rs s i)).1, (r (inTurn id rs s i)).2.cursor id,
      (r (inTurn id rs s i)).2.childrenFrom id (s.node id).children.length⟩ := by
  have hlt : i < rs.length := by
    rw [← length_trials id (s.cursor id) (s.node id).children.length rs s.noteAlternation]
    exact (List.getElem?_eq_some_iff.1 ht).1
  have hr := List.getElem?_eq_getElem hlt
  rw [(tried_succ_inTurn id s hr).2] at ht
  exact ⟨_, hr, (Option.some.inj ht).symm⟩

variable (h : ∀ r ∈ rs, Local id r) (hs : s.tree.WellFormed) (hid : id < s.tree.size)
include h hs hid

theorem inTurn_extends (i : Nat) : s.Extends id (inTurn id rs s i) :=
  (tried_spec h hs hid i).1.moveTo hid _

theorem turn_extends (hr : rs[i]? = some r) : s.Extends id (r (inTurn id rs s i)).2 := by
  have hturn := inTurn_extends h hs hid i
  have hlocal := h r (List.mem_of_getElem? hr)
  exact hturn.trans hid (hlocal _ hturn.wellFormed (Nat.lt_of_lt_of_le hid hturn.size_le))

theorem fault_turn (hr : rs[i]? = some r) (hfault : (tried id rs s rs.length).fault = none) :
    (r (inTurn id rs s i)).2.fault = none := by
  have hrest := (tried_extends h hs hid (i + 1)).fault_eq_none hfault
  rwa [(tried_succ_inTurn id s hr).1] at hrest

/-- What is expected below the children that a candidate makes is the same when all have run. -/
theorem expected_made (hr : rs[i]? = some r) {c : Nat}
    (hc : c ∈ (r (inTurn id rs s i)).2.childrenFrom id (s.node id).children.length) :
    (tried id rs s rs.length).tree.expected c = (r (inTurn id rs s i)).2.tree.expected c := by
  have hturn := turn_extends h hs hid hr
  have hkeep := hturn.keepChildren hs hid rfl
  have hrest := tried_extends h hs hid (i + 1)
  rw [(tried_succ_inTurn id s hr).1] at hrest
  have hsprouts := List.map_inj_left.1
    (map_sprout_childrenFrom hturn.wellFormed hkeep.wellFormed hrest) c hc
  rw [hrest.wellFormed.expected_eq, hturn.wellFormed.expected_eq, Function.comp_apply, hsprouts,
    Function.comp_apply]

theorem mentions_turn (hr : rs[i]? = some r) :
    ((r (inTurn id rs s i)).2.tree.expected id).mentions =
        ((tried id rs s (i + 1)).node id).expected.mentions ∪
          ((⋃ c ∈ (s.node id).children, (s.tree.expected c).mentions) ∪
            ⋃ c ∈ (r (inTurn id rs s i)).2.childrenFrom id (s.node id).children.length,
              ((tried id rs s rs.length).tree.expected c).mentions) := by
  rw [(turn_extends h hs hid hr).mentions_expected hs, expected_tried_succ id s hr]
  congr 2
  exact Set.iUnion₂_congr fun c hc =>
    congrArg Expectations.mentions (expected_made h hs hid hr hc).symm

/-- What an alternation without a success leaves expected: what the node has recorded up to the end,
and what is below the children that it had and those that were cut off. -/
theorem mentions_lost (hfault : (tried id rs s rs.length).fault = none)
    (hlost : ∀ t ∈ contest id rs s, t.matched = false) :
    (alternation id rs s).1 = false ∧ ((alternation id rs s).2.tree.expected id).mentions =
      ((tried id rs s rs.length).node id).expected.mentions ∪
        ((⋃ c ∈ (s.node id).children, (s.tree.expected c).mentions) ∪
          ⋃ t ∈ contest id rs s, ⋃ c ∈ t.children,
            ((tried id rs s rs.length).tree.expected c).mentions) := by
  obtain ⟨hext, hsame⟩ := tried_spec h hs hid rs.length
  have hid' := Nat.lt_of_lt_of_le hid hext.size_le
  have hmove := (RunState.Extends.refl hext.wellFormed).moveTo hid' (s.cursor id)
  have hmoved : (((tried id rs s rs.length).moveTo id (s.cursor id)).node id).expected =
      ((tried id rs s rs.length).node id).expected := Tree.apply_node_modify Node.expected rfl id
  have hbest : heaviest (ranked ((tried id rs s rs.length).moveTo id (s.cursor id)).tree.weight 1
      (contest id rs s)) = none := heaviest_eq_none_iff.2 hlost
  have hout := settle_none (s.cursor id) hfault hbest
  obtain ⟨hfail, hchildren, -⟩ := settle_lost hid' hfault hbest
  rw [← alternation_eq] at hout hfail hchildren
  have hnone : (alternation id rs s).2.childrenFrom id (s.node id).children.length = [] := by
    rw [RunState.childrenFrom, hchildren, hsame, List.drop_length]
  have hown : ((alternation id rs s).2.node id).expected =
      ((tried id rs s rs.length).node id).expected.merge
        (((tried id rs s rs.length).moveTo id (s.cursor id)).expectedOf
          ((contest id rs s).flatMap Trial.children)) := by
    have hsize := Nat.lt_of_lt_of_le hid' hmove.size_le
    rw [hout, ← hmoved]
    exact congrArg Node.expected (RunState.node_modify_self _ _ hsize)
  -- what is below the node where the candidates are given up is as the candidates left it
  have hgiven : (((tried id rs s rs.length).moveTo id (s.cursor id)).expectedOf
        ((contest id rs s).flatMap Trial.children)).mentions =
      ⋃ t ∈ contest id rs s, ⋃ c ∈ t.children,
        ((tried id rs s rs.length).tree.expected c).mentions := by
    rw [RunState.mentions_expectedOf, biUnion_flatMap]
    refine Set.iUnion₂_congr fun t ht => Set.iUnion₂_congr fun c hc => ?_
    obtain ⟨hge, hlt, -⟩ := (contest_spec h hs hid t ht).new c hc
    rw [hmove.expected_eq hext.wellFormed (Nat.lt_of_lt_of_le hid hge) hlt]
  refine ⟨hfail, ?_⟩
  rw [(local_alternation h s hs hid).mentions_expected hs, hnone, hown,
    Expectations.mentions_merge, hgiven, Set.union_assoc]
  simp [Set.union_comm]

end Candidates

section Failed

variable (h : SimulatesAll id rs gs) (hretains : ∀ g ∈ gs, g.Retains) (hs : s.tree.WellFormed)
  (hid : id < s.tree.size) (hfault : (tried id rs s rs.length).fault = none)
include h hretains hs hid hfault

theorem mentions_tried_subset {k m : Nat} (hle : k ≤ m) :
    ((tried id rs s k).node id).expected.mentions ⊆
      ((tried id rs s m).node id).expected.mentions := by
  induction hle with
  | refl => exact Set.Subset.rfl
  | @step i _ ih =>
    refine Set.Subset.trans ih ?_
    cases hr : rs[i]? with
    | none =>
      have hi := List.getElem?_eq_none_iff.1 hr
      rw [tried_of_le id s hi, tried_of_le id s (Nat.le_succ_of_le hi)]
    | some r =>
      obtain ⟨g, hg, hsim⟩ := (getElem?_of_forall₂ h i).1 r hr
      have hturn := inTurn_extends h.local_step hs hid i
      have hkept := hsim.retains (hretains g (List.mem_of_getElem? hg)) hturn.wellFormed
        (Nat.lt_of_lt_of_le hid hturn.size_le) (fault_turn h.local_step hs hid hr hfault)
      have hbefore : ((inTurn id rs s i).node id).expected = ((tried id rs s i).node id).expected :=
        Tree.apply_node_modify Node.expected rfl id
      rw [expected_tried_succ id s hr, ← hbefore]
      exact hkept

/-- Where no candidate succeeds, all that was expected after one of them is expected, and no more.
-/
theorem mentions_alternation (hne : rs ≠ [])
    (hfailed : ∀ (i : Nat) (r : Step), rs[i]? = some r → (r (inTurn id rs s i)).1 = false) :
    (alternation id rs s).1 = false ∧ ((alternation id rs s).2.tree.expected id).mentions =
      {x | ∃ (i : Nat) (r : Step), rs[i]? = some r ∧
        x ∈ ((r (inTurn id rs s i)).2.tree.expected id).mentions} := by
  have hlocal := h.local_step
  have hlost : ∀ t ∈ contest id rs s, t.matched = false := by
    intro t ht
    obtain ⟨i, hi⟩ := List.mem_iff_getElem?.1 ht
    obtain ⟨r, hr, rfl⟩ := exists_turn hi
    exact hfailed i r hr
  obtain ⟨hfail, hmentions⟩ := mentions_lost hlocal hs hid hfault hlost
  refine ⟨hfail, Set.ext fun x => ?_⟩
  rw [hmentions, Set.mem_ofPred_eq]
  constructor
  · rintro (hkept | hold | hmade)
    · -- the node has all its expectations after the last candidate
      obtain ⟨last, hlast⟩ := Nat.exists_eq_succ_of_ne_zero (mt List.length_eq_zero_iff.1 hne)
      have hr : rs[last]? = some _ := List.getElem?_eq_getElem (by omega)
      rw [hlast] at hkept
      exact ⟨last, _, hr, mentions_turn hlocal hs hid hr ▸ .inl hkept⟩
    · have hr : rs[0]? = some _ := List.getElem?_eq_getElem (List.length_pos_iff.2 hne)
      exact ⟨0, _, hr, mentions_turn hlocal hs hid hr ▸ .inr (.inl hold)⟩
    · simp only [Set.mem_iUnion, exists_prop] at hmade
      obtain ⟨t, ht, c, hc, hx⟩ := hmade
      obtain ⟨i, hi⟩ := List.mem_iff_getElem?.1 ht
      obtain ⟨r, hr, rfl⟩ := exists_turn hi
      refine ⟨i, r, hr, mentions_turn hlocal hs hid hr ▸ .inr (.inr ?_)⟩
      exact Set.mem_iUnion₂_of_mem hc hx
  · rintro ⟨i, r, hr, hx⟩
    have hi := (List.getElem?_eq_some_iff.1 hr).1
    have ht := List.mem_of_getElem? (tried_succ_inTurn id s hr).2
    rw [mentions_turn hlocal hs hid hr] at hx
    rcases hx with hkept | hold | hmade
    · exact .inl (mentions_tried_subset h hretains hs hid hfault hi hkept)
    · exact .inr (.inl hold)
    · exact .inr (.inr (Set.mem_biUnion ht hmade))

end Failed

/-- A sequence that fails does so at the first part that fails. -/
theorem exists_of_all_failed (hfailed : (all rs s).1 = false) :
    ∃ (k : Nat) (r : Step), rs[k]? = some r ∧ (all (rs.take k) s).1 = true ∧
      r (all (rs.take k) s).2 = all rs s := by
  induction rs generalizing s with
  | nil => cases hfailed
  | cons r rs ih =>
    rw [all] at hfailed
    cases hr : r s with
    | mk ok s₁ =>
      rw [hr] at hfailed
      cases ok with
      | false => exact ⟨0, r, rfl, rfl, by rw [all, hr]; exact hr⟩
      | true =>
        obtain ⟨k, r', hk, hbefore, hat⟩ := ih hfailed
        refine ⟨k + 1, r', hk, ?_, ?_⟩
        · rw [List.take_succ_cons, all, hr]
          exact hbefore
        · rw [List.take_succ_cons, all, hr, all, hr]
          exact hat

theorem mentions_moveTo (hs : s.tree.WellFormed) (hid : id < s.tree.size) (point : Nat) :
    ((s.moveTo id point).tree.expected id).mentions = (s.tree.expected id).mentions := by
  have hmove := (RunState.Extends.refl hs).moveTo hid point
  have hchildren : ((s.moveTo id point).node id).children = (s.node id).children :=
    Tree.apply_node_modify Node.children rfl id
  have hexpected : ((s.moveTo id point).node id).expected = (s.node id).expected :=
    Tree.apply_node_modify Node.expected rfl id
  rw [hmove.mentions_expected hs, (RunState.Extends.refl hs).mentions_expected hs, hexpected,
    RunState.childrenFrom, RunState.childrenFrom, hchildren, List.drop_length]
  simp

/-- A sequence that fails expects what was expected when the part that fails returned. -/
theorem mentions_sequence (h : ∀ r ∈ rs, Local id r) (hs : s.tree.WellFormed)
    (hid : id < s.tree.size) (hfailed : (sequence id rs s).1 = false) :
    ∃ (k : Nat) (r : Step), rs[k]? = some r ∧ (all (rs.take k) s).1 = true ∧
      (r (all (rs.take k) s).2).1 = false ∧ ((sequence id rs s).2.tree.expected id).mentions =
        ((r (all (rs.take k) s).2).2.tree.expected id).mentions := by
  have hlocal := local_all h s hs hid
  unfold sequence at hfailed ⊢
  cases hall : all rs s with
  | mk ok s' =>
    rw [hall] at hfailed hlocal
    cases ok with
    | true => cases hfailed
    | false =>
      obtain ⟨k, r, hr, hbefore, hat⟩ := exists_of_all_failed (congrArg Prod.fst hall)
      rw [hall] at hat
      refine ⟨k, r, hr, hbefore, congrArg Prod.fst hat, ?_⟩
      rw [hat]
      exact mentions_moveTo hlocal.wellFormed (Nat.lt_of_lt_of_le hid hlocal.size_le) _

end Step

namespace Context
open Step (Advances all alternation inTurn iterate runs)

/-- A failure gives back what it has made but nothing that was expected. After an alternation none
of whose candidates succeeds the node expects what it expected after one of them or another, each
told before it was cut off; after a repetition, what it expected before the last run was taken back;
after a sequence that fails, what it expected when the part that fails returned. -/
theorem expected_of_failure (ctx : Context) (left id : Nat) (es : List Expr) (e : Expr)
    (s : RunState) (hs : s.AtWork ctx.source id) :
    let rs := Expr.steps ctx (ctx.attempt left) id es
    let r := e.step ctx (ctx.attempt left) id
    (es ≠ [] → (alternation id rs s).2.fault = none →
      (∀ (i : Nat) (r : Step), rs[i]? = some r → (r (inTurn id rs s i)).1 = false) →
      (alternation id rs s).1 = false ∧ ((alternation id rs s).2.tree.expected id).mentions =
        {x | ∃ (i : Nat) (r : Step), rs[i]? = some r ∧
          x ∈ ((r (inTurn id rs s i)).2.tree.expected id).mentions}) ∧
    (∃ n, (∀ k < n, Advances id r (runs r k s)) ∧ ¬ Advances id r (runs r n s) ∧
      (iterate ctx id r s).1 = n ∧ ((iterate ctx id r s).2.tree.expected id).mentions =
        ((r (runs r n s)).2.tree.expected id).mentions) ∧
    ((Step.sequence id rs s).1 = false → ∃ (k : Nat) (r : Step), rs[k]? = some r ∧
      (all (rs.take k) s).1 = true ∧ (r (all (rs.take k) s).2).1 = false ∧
      ((Step.sequence id rs s).2.tree.expected id).mentions =
        ((r (all (rs.take k) s).2).2.tree.expected id).mentions) := by
  intro rs r
  have hwf := hs.wellFormed
  have hid := hs.lt_size
  have hsimulates : Step.SimulatesAll id rs (Expr.growths ctx (ctx.grow left) es) :=
    Expr.simulates_steps ctx id (fun child => simulates_attempt ctx left child) es
  refine ⟨fun hne hfault hfailed => ?_, ?_, fun hfailed => ?_⟩
  · rw [Step.alternation_eq, Step.fault_settle] at hfault
    have hsome : rs ≠ [] := by
      rw [show rs = _ from Expr.steps_eq ctx _ id es]
      exact mt List.map_eq_nil_iff.1 hne
    exact Step.mentions_alternation hsimulates (Expr.retains_growths ctx (ctx.grow left) es) hwf hid
      hfault hsome hfailed
  · have hlocal : Step.Local id r := Expr.local_step ctx id (local_attempt ctx left) e
    obtain ⟨n, hturns, hlast, hout⟩ := Step.iterate_eq_runs (atWork_step ctx left id e) hs
    have hruns := Step.runs_extends hlocal hwf hid n
    have hrun := Step.run_extends hlocal hwf hid n
    have hback := Step.mentions_takeBack ((runs r n s).cursor id) hruns.wellFormed
      (Nat.lt_of_lt_of_le hid hruns.size_le) hrun
    refine ⟨n, hturns, hlast, congrArg Prod.fst hout, ?_⟩
    rw [hout, ← Step.runs_succ]
    exact hback
  · exact Step.mentions_sequence hsimulates.local_step hwf hid hfailed

/-- Two letters one after the other, or the second alone. -/
def pairOrSecond : List Expr := [.ref "AB", .ref "B"]

def letters : Context where
  source := .ofString "ac"
  rules := .merge .empty .empty (.ofList [
    ("ROOT", .alt pairOrSecond), ("AB", .seq [.ref "A", .ref "B"]),
    ("A", .byte (.single 97)), ("B", .byte (.single 98))])

def lettersOutcome : Bool × RunState :=
  alternation Tree.root (Expr.steps letters (letters.attempt 8) Tree.root pairOrSecond)
    (.start letters "ROOT")

def lettersRepeated : Nat × RunState :=
  iterate letters Tree.root ((Expr.ref "A").step letters (letters.attempt 8) Tree.root)
    (.start letters "ROOT")

def lettersInOrder : Bool × RunState :=
  Step.sequence Tree.root (Expr.steps letters (letters.attempt 8) Tree.root [.ref "A", .ref "B"])
    (.start letters "ROOT")

/-- The first candidate fails behind a letter that it has taken. With both candidates cut off, the
root expects what was expected there, and the two at its start. A repetition of the letter expects
one more of it behind the first, and a sequence of the two expects the second there. -/
theorem expected_of_failure_letters :
    lettersOutcome.1 = false ∧ (lettersOutcome.2.node Tree.root).children = [] ∧
      (⟨1, 1⟩, "B") ∈ (lettersOutcome.2.tree.expected Tree.root).mentions ∧
      (⟨1, 0⟩, "AB") ∈ (lettersOutcome.2.tree.expected Tree.root).mentions ∧
      (⟨1, 0⟩, "B") ∈ (lettersOutcome.2.tree.expected Tree.root).mentions ∧
      lettersRepeated.1 = 1 ∧ (lettersRepeated.2.node Tree.root).children = [1] ∧
      (⟨1, 1⟩, "A") ∈ (lettersRepeated.2.tree.expected Tree.root).mentions ∧
      lettersInOrder.1 = false ∧ lettersInOrder.2.cursor Tree.root = 0 ∧
      (⟨1, 1⟩, "B") ∈ (lettersInOrder.2.tree.expected Tree.root).mentions := by
  obtain ⟨hfailure, -, -⟩ := expected_of_failure letters 8 Tree.root pairOrSecond (.ref "AB") _
    (atWork_start letters "ROOT")
  obtain ⟨-, ⟨n, -, -, hcount, hturns⟩, hinOrder⟩ := expected_of_failure letters 8 Tree.root
    [.ref "A", .ref "B"] (.ref "A") _ (atWork_start letters "ROOT")
  have hgood := hfailure (List.cons_ne_nil _ _) (by decide +kernel)
  obtain ⟨hfailed, hmentions⟩ := hgood fun i r hr => by
    rcases i with _ | _ | i
    · obtain rfl := Option.some.inj hr
      decide +kernel
    · obtain rfl := Option.some.inj hr
      decide +kernel
    · cases hr
  have hone : lettersRepeated.1 = 1 := by decide +kernel
  obtain rfl : n = 1 := hcount.symm.trans hone
  have hmore : (⟨1, 1⟩, "A") ∈ (lettersRepeated.2.tree.expected Tree.root).mentions := by
    unfold lettersRepeated
    rw [hturns]
    exact Expectations.mem_mentions.2 (by decide +kernel)
  obtain ⟨k, r, hr, -, hfails, hleft⟩ := hinOrder (by decide +kernel)
  -- the letter is there, so it is the second part that fails
  obtain rfl : k = 1 := by
    rcases k with _ | _ | k
    · obtain rfl := Option.some.inj hr
      exact absurd hfails (by decide +kernel)
    · rfl
    · cases hr
  obtain rfl := Option.some.inj hr
  have hsecond : (⟨1, 1⟩, "B") ∈ (lettersInOrder.2.tree.expected Tree.root).mentions := by
    unfold lettersInOrder
    rw [hleft]
    exact Expectations.mem_mentions.2 (by decide +kernel)
  unfold lettersOutcome
  rw [hmentions]
  refine ⟨hfailed, by decide +kernel, ⟨0, _, rfl, ?_⟩, ⟨0, _, rfl, ?_⟩, ⟨1, _, rfl, ?_⟩, hone,
    by decide +kernel, hmore, by decide +kernel, by decide +kernel, hsecond⟩
  all_goals exact Expectations.mem_mentions.2 (by decide +kernel)

end Context

end RankedGrammar
