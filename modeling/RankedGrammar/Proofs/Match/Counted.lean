import RankedGrammar.Proofs.Match.Collapsed
import RankedGrammar.Proofs.Match.Latched
import RankedGrammar.Proofs.Rule.Index

/-!
What the counters of a run say of its table. Every node is made for one attempt, which is made at once;
so the nodes are attempted in the order of the table, those that were given up included, and what is
counted can be read off their names and their parents. An attempt begins where as many rules are running
as there are nodes above its own.
-/
namespace RankedGrammar

namespace Tree

def Rooted (t : Tree) : Prop := ∀ n p : Nat, (t.node n).parent = some p → p < n

variable {t t' : Tree} {n k : Nat}

/-- Where every parent comes before its child, it does not matter how far the way up is followed,
nor what comes after the node. -/
theorem Rooted.parents_congr (h : t.Rooted)
    (hsame : ∀ m < k, (t'.node m).parent = (t.node m).parent) {fuel fuel' : Nat} (hn : n < k)
    (hfuel : n ≤ fuel) (hfuel' : n ≤ fuel') : t'.parents fuel' n = t.parents fuel n := by
  induction n using Nat.strongRecOn generalizing fuel fuel' with
  | ind n ih =>
    cases hparent : (t.node n).parent with
    | none =>
      have hnone : ∀ {u : Tree}, (u.node n).parent = none → ∀ fuel, u.parents fuel n = [] := by
        intro u hu fuel
        cases fuel with
        | zero => rfl
        | succ fuel => rw [parents, hu]
      rw [hnone hparent, hnone ((hsame n hn).trans hparent)]
    | some p =>
      have hlt := h n _ hparent
      obtain ⟨fuel, rfl⟩ := Nat.exists_eq_succ_of_ne_zero (show fuel ≠ 0 by omega)
      obtain ⟨fuel', rfl⟩ := Nat.exists_eq_succ_of_ne_zero (show fuel' ≠ 0 by omega)
      rw [parents, parents, hsame n hn, hparent]
      exact congrArg (p :: ·) (ih p hlt (by omega) (by omega) (by omega))

theorem Rooted.ancestors_congr (h : t.Rooted) (hle : t.size ≤ t'.size)
    (hsame : ∀ m < t.size, (t'.node m).parent = (t.node m).parent) (hn : n < t.size) :
    t'.ancestors n = t.ancestors n :=
  h.parents_congr hsame hn (Nat.le_of_lt hn) (by omega)

theorem Rooted.ancestors_of_parent (h : t.Rooted) {p : Nat} (hn : n < t.size)
    (hparent : (t.node n).parent = some p) : t.ancestors n = p :: t.ancestors p := by
  have hlt := h n _ hparent
  obtain ⟨fuel, hsize⟩ := Nat.exists_eq_succ_of_ne_zero (show t.size ≠ 0 by omega)
  unfold ancestors
  rw [hsize, parents, hparent]
  exact congrArg (p :: ·) (h.parents_congr (k := t.size) (fun _ _ => rfl) (by omega) (by omega)
    (by omega))

/-- The number of nodes from a node up to the root, both counted. -/
def level (t : Tree) (n : NodeId) : Nat := (n :: t.ancestors n).length

end Tree

def Context.defines (ctx : Context) (t : Tree) (n : NodeId) : Bool :=
  (ctx.rules.rule? (t.node n).name).isSome

namespace RunState

/-- `s'` has the nodes of `s`, with the names and the parents that they had. -/
structure Later (s s' : RunState) : Prop where
  size_le : s.tree.size ≤ s'.tree.size
  name : ∀ n < s.tree.size, (s'.node n).name = (s.node n).name
  parent : ∀ n < s.tree.size, (s'.node n).parent = (s.node n).parent

namespace Later

variable {s s' s'' : RunState}

theorem trans (h : s.Later s') (h' : s'.Later s'') : s.Later s'' where
  size_le := Nat.le_trans h.size_le h'.size_le
  name := fun n hn => (h'.name n (Nat.lt_of_lt_of_le hn h.size_le)).trans (h.name n hn)
  parent := fun n hn => (h'.parent n (Nat.lt_of_lt_of_le hn h.size_le)).trans (h.parent n hn)

theorem of_tree (h : s'.tree = s.tree) : s.Later s' where
  size_le := Nat.le_of_eq (congrArg Tree.size h).symm
  name := fun n _ => by rw [node, node, h]
  parent := fun n _ => by rw [node, node, h]

theorem of_quiet (h : s.Quiet s') : s.Later s' :=
  ⟨Nat.le_of_eq h.size.symm, fun n _ => h.name n, fun n _ => h.parent n⟩

theorem ancestors (h : s.Later s') (hrooted : s.tree.Rooted) {n : Nat} (hn : n < s.tree.size) :
    s'.tree.ancestors n = s.tree.ancestors n :=
  hrooted.ancestors_congr h.size_le h.parent hn

end Later

theorem noteUnresolved_spec (s : RunState) (ctx : Context) (id : NodeId) :
    (s.noteUnresolved ctx id).counters.nodesCreated = s.counters.nodesCreated ∧
      (s.noteUnresolved ctx id).attempted = s.attempted ++ [id] ∧
      (s.noteUnresolved ctx id).counters.deepest = s.counters.deepest ∧
      (s.noteUnresolved ctx id).counters.unresolved =
        if (s.node id).name ∈ s.counters.unresolved then s.counters.unresolved
        else s.counters.unresolved ++ [(s.node id).name] := by
  unfold noteUnresolved
  dsimp only
  split
  · exact ⟨rfl, s.attempted_report _, rfl, rfl⟩
  · exact ⟨rfl, s.attempted_report _, rfl, rfl⟩

/-- The counters and the journal account for the first `k` nodes of the table, and for no others. -/
structure Accounts (ctx : Context) (k : Nat) (s : RunState) : Prop where
  rooted : s.tree.Rooted
  le_size : k ≤ s.tree.size
  created : s.counters.nodesCreated = s.tree.size
  attempted : s.attempted = List.range k
  evaluations : s.counters.evaluations = (List.range k).countP (ctx.defines s.tree)
  unresolved : s.counters.unresolved = (((List.range k).filter (!ctx.defines s.tree ·)).map
    fun n => (s.node n).name).eraseDups
  deepest : s.counters.deepest =
    (((List.range k).filter (ctx.defines s.tree)).map s.tree.level).foldl max 0

namespace Accounts

variable {ctx : Context} {k : Nat} {s s' : RunState}

/-- Later on the counters account for the same nodes, if they are as they were. -/
theorem later (h : s.Accounts ctx k) (hlater : s.Later s') (hrooted : s'.tree.Rooted)
    (hcreated : s'.counters.nodesCreated = s'.tree.size) (hattempted : s'.attempted = s.attempted)
    (hevaluations : s'.counters.evaluations = s.counters.evaluations)
    (hunresolved : s'.counters.unresolved = s.counters.unresolved)
    (hdeepest : s'.counters.deepest = s.counters.deepest) : s'.Accounts ctx k := by
  have hlt : ∀ n ∈ List.range k, n < s.tree.size := fun n hn =>
    Nat.lt_of_lt_of_le (List.mem_range.1 hn) h.le_size
  have hname : ∀ n ∈ List.range k, (s'.node n).name = (s.node n).name :=
    fun n hn => hlater.name n (hlt n hn)
  have hdefines : ∀ n ∈ List.range k, ctx.defines s'.tree n = ctx.defines s.tree n :=
    fun n hn => congrArg (fun name => (ctx.rules.rule? name).isSome) (hname n hn)
  have hlevel : ∀ n ∈ List.range k, s'.tree.level n = s.tree.level n := fun n hn =>
    congrArg (fun path : List NodeId => (n :: path).length) (hlater.ancestors h.rooted (hlt n hn))
  refine ⟨hrooted, Nat.le_trans h.le_size hlater.size_le, hcreated, hattempted.trans h.attempted,
    ?_, ?_, ?_⟩
  · rw [hevaluations, h.evaluations]
    exact List.countP_congr fun n hn => by rw [hdefines n hn]
  · rw [hunresolved, h.unresolved, List.filter_congr fun n hn => congrArg not (hdefines n hn)]
    exact congrArg List.eraseDups
      (List.map_congr_left fun n hn => (hname n (List.mem_of_mem_filter hn)).symm)
  · rw [hdeepest, h.deepest, List.filter_congr hdefines]
    exact congrArg (List.foldl max 0)
      (List.map_congr_left fun n hn => (hlevel n (List.mem_of_mem_filter hn)).symm)

theorem quiet (h : s.Accounts ctx k) (hquiet : s.Quiet s') : s'.Accounts ctx k :=
  h.later (.of_quiet hquiet) (fun n p hp => h.rooted n p (hquiet.parent n ▸ hp))
    (by rw [hquiet.created, hquiet.size, h.created]) hquiet.attempted hquiet.evaluations
    hquiet.unresolved hquiet.deepest

/-- An attempt at a rule that is not defined accounts for its node. -/
theorem noteUnresolved (h : s.Accounts ctx k) (hk : k < s.tree.size)
    (hnone : ctx.rules.rule? (s.node k).name = none) :
    (s.noteUnresolved ctx k).Accounts ctx (k + 1) := by
  have hfalse : ctx.defines s.tree k = false := congrArg Option.isSome hnone
  have htree := s.tree_noteUnresolved ctx k
  have hevaluations := (s.noteUnresolved_spares ctx k).2
  obtain ⟨hcreated, hattempted, hdeepest, hunresolved⟩ := s.noteUnresolved_spec ctx k
  refine ⟨htree ▸ h.rooted, htree ▸ hk, by rw [hcreated, htree, h.created], ?_, ?_, ?_, ?_⟩
  · rw [hattempted, h.attempted, List.range_succ]
  · rw [hevaluations, h.evaluations, htree, List.range_succ, List.countP_append]
    simp [hfalse]
  · have hnode : ∀ n, (s.noteUnresolved ctx k).node n = s.node n :=
      fun n => congrArg (Tree.node · n) htree
    have hnew : [k].filter (!ctx.defines s.tree ·) = [k] := by simp [hfalse]
    rw [hunresolved, h.unresolved, htree, List.range_succ, List.filter_append, List.map_append,
      hnew]
    simp only [hnode]
    exact (eraseDups_concat _ _).symm
  · rw [hdeepest, h.deepest, htree, List.range_succ, List.filter_append]
    simp [hfalse]

/-- An attempt that runs a rule accounts for its node, as deep as it lies. -/
theorem enter (h : s.Accounts ctx k) (hk : k < s.tree.size) {body : Expr}
    (hsome : ctx.rules.rule? (s.node k).name = some body) :
    (s.enter k (s.tree.level k)).Accounts ctx (k + 1) := by
  have htrue : ctx.defines s.tree k = true := congrArg Option.isSome hsome
  refine ⟨h.rooted, hk, h.created, ?_, ?_, ?_, ?_⟩
  · have hattempted : (s.enter k (s.tree.level k)).attempted = s.attempted ++ [k] :=
      s.attempted_report _
    rw [hattempted, h.attempted, List.range_succ]
  · have hmore : (s.enter k (s.tree.level k)).counters.evaluations = s.counters.evaluations + 1 :=
      rfl
    rw [hmore, h.evaluations, List.range_succ, List.countP_append]
    exact congrArg _ (List.countP_eq_length.2 (List.forall_mem_singleton.2 htrue)).symm
  · have hnew : [k].filter (!ctx.defines s.tree ·) = [] := by simp [htrue]
    have hold : (s.enter k (s.tree.level k)).counters.unresolved = s.counters.unresolved := rfl
    have htree : (s.enter k (s.tree.level k)).tree = s.tree := rfl
    rw [hold, h.unresolved, htree, List.range_succ, List.filter_append, hnew, List.append_nil]
    rfl
  · have hmore : (s.enter k (s.tree.level k)).counters.deepest =
        max s.counters.deepest (s.tree.level k) := rfl
    have htree : (s.enter k (s.tree.level k)).tree = s.tree := rfl
    have hnew : [k].filter (ctx.defines s.tree) = [k] := by simp [htrue]
    rw [hmore, h.deepest, htree, List.range_succ, List.filter_append, hnew, List.map_append,
      List.foldl_append]
    rfl

end Accounts

/-- The rule of a node is running, with so many levels left for those that it calls, and every node
there is has been attempted. -/
structure Busy (ctx : Context) (left : Nat) (id : NodeId) (s : RunState) : Prop where
  accounts : s.Accounts ctx s.tree.size
  lt_size : id < s.tree.size
  running : s.running = id :: s.tree.ancestors id
  level : s.running.length + left = ctx.limit

/-- The rule of the last node of the table begins to run as deep as the node lies. -/
theorem Accounts.busy_enter {ctx : Context} {left id : Nat} {s : RunState} {body : Expr}
    (h : s.Accounts ctx id) (hsize : s.tree.size = id + 1)
    (hrunning : s.running = s.tree.ancestors id)
    (hlevel : s.running.length + (left + 1) = ctx.limit)
    (hrule : ctx.rules.rule? (s.node id).name = some body) :
    (s.enter id (ctx.limit - left)).Busy ctx left id := by
  have hid : id < s.tree.size := hsize ▸ Nat.lt_succ_self id
  have hdepth : ctx.limit - left = s.tree.level id := by
    rw [Tree.level, List.length_cons, ← hrunning]
    omega
  have haccounts := h.enter hid hrule
  rw [← hdepth, ← hsize] at haccounts
  have henter : (s.enter id (ctx.limit - left)).running = id :: s.running := s.running_report _
  refine ⟨haccounts, hid, henter.trans (congrArg _ hrunning), ?_⟩
  rw [henter, List.length_cons]
  omega

/-- The attempts from `s` to `s'` are at the nodes after the first `k` in turn, and all of them are
accounted for. -/
structure Served (ctx : Context) (k : Nat) (s : RunState) (made : List Attempt) (s' : RunState) :
    Prop where
  later : s.Later s'
  accounts : s'.Accounts ctx s'.tree.size
  running : s'.running = s.running
  order : List.range k ++ made.map Attempt.id = List.range s'.tree.size

section Served

variable {ctx : Context} {left id k : Nat} {s s' s'' : RunState} {made made' : List Attempt}

theorem Busy.later (h : s.Busy ctx left id) (hserved : Served ctx k s made s') :
    s'.Busy ctx left id where
  accounts := hserved.accounts
  lt_size := Nat.lt_of_lt_of_le h.lt_size hserved.later.size_le
  running := by
    rw [hserved.running, h.running, hserved.later.ancestors h.accounts.rooted h.lt_size]
  level := by rw [hserved.running]; exact h.level

theorem Served.append (h : Served ctx k s made s') (h' : Served ctx s'.tree.size s' made' s'') :
    Served ctx k s (made ++ made') s'' where
  later := h.later.trans h'.later
  accounts := h'.accounts
  running := h'.running.trans h.running
  order := by rw [List.map_append, ← List.append_assoc, h.order, h'.order]

theorem served_quiet (h : s.Busy ctx left id) (hquiet : s.Quiet s') :
    Served ctx s.tree.size s [] s' where
  later := .of_quiet hquiet
  accounts := hquiet.size ▸ h.accounts.quiet hquiet
  running := hquiet.running
  order := by rw [hquiet.size, List.map_nil, List.append_nil]

/-- What the attempts of a body account for joins, where nothing goes wrong. -/
theorem chain_served (ctx : Context) (left : Nat) (id : NodeId) :
    Chain fun s made s' => (s'.fault = none → s.fault = none) ∧
      (s.Busy ctx left id → s'.fault = none → Served ctx s.tree.size s made s') where
  quiet := fun hquiet => ⟨fun hnone => hquiet.fault ▸ hnone, fun h _ => served_quiet h hquiet⟩
  append := fun ⟨hfault, h⟩ ⟨hfault', h'⟩ => by
    refine ⟨fun hnone => hfault (hfault' hnone), fun hwork hnone => ?_⟩
    have hserved := h hwork (hfault' hnone)
    exact hserved.append (h' (hwork.later hserved) hnone)

theorem later_grow (s : RunState) (ctx : Context) (id : NodeId) (name : String) (role : Role) :
    s.Later (s.grow ctx id name role) where
  size_le := by rw [size_grow]; exact Nat.le_succ _
  name := fun _ => s.apply_node_grow ctx id name role fun _ _ => rfl
  parent := fun _ => s.apply_node_grow ctx id name role fun _ _ => rfl

theorem rooted_grow (h : s.tree.Rooted) (hid : id < s.tree.size) (ctx : Context) (name : String)
    (role : Role) : (s.grow ctx id name role).tree.Rooted := by
  intro n p hparent
  rcases (s.parent_grow ctx id name role).1 hparent with hold | ⟨rfl, rfl⟩
  · exact h n p hold
  · exact hid

theorem Busy.grow (h : s.Busy ctx left id) (c : Call) :
    (s.grow ctx id c.rule c.role).Accounts ctx s.tree.size ∧
      (s.grow ctx id c.rule c.role).running =
        (s.grow ctx id c.rule c.role).tree.ancestors s.tree.size := by
  have hlater := s.later_grow ctx id c.rule c.role
  have hrooted := rooted_grow h.accounts.rooted h.lt_size ctx c.rule c.role
  have hcreated : (s.grow ctx id c.rule c.role).counters.nodesCreated =
      s.counters.nodesCreated + 1 := rfl
  refine ⟨h.accounts.later hlater hrooted ?_ rfl rfl rfl rfl, ?_⟩
  · rw [hcreated, h.accounts.created, size_grow]
  · have hsame : (s.grow ctx id c.rule c.role).running = s.running := rfl
    have hcalled := (s.parent_grow ctx id c.rule c.role).2 (.inr ⟨rfl, rfl⟩)
    rw [hrooted.ancestors_of_parent (by rw [size_grow]; exact Nat.lt_succ_self _) hcalled,
      hlater.ancestors h.accounts.rooted h.lt_size, hsame, h.running]

theorem Accounts.leave (id : NodeId) (ok : Bool) (h : s.Accounts ctx s.tree.size) :
    s.Later (leave id (ok, s)).2 ∧ (leave id (ok, s)).2.tree.size = s.tree.size ∧
      (leave id (ok, s)).2.Accounts ctx s.tree.size := by
  have hsize : (RunState.leave id (ok, s)).2.tree.size = s.tree.size := size_modify s id _
  have hparent : ∀ n, ((RunState.leave id (ok, s)).2.node n).parent = (s.node n).parent :=
    Tree.apply_node_modify Node.parent rfl
  have hlater : s.Later (RunState.leave id (ok, s)).2 :=
    ⟨Nat.le_of_eq hsize.symm, fun n _ => Tree.apply_node_modify Node.name rfl n,
      fun n _ => hparent n⟩
  refine ⟨hlater, hsize, h.later hlater (fun n p hp => h.rooted n p (hparent n ▸ hp)) ?_ ?_ rfl rfl
    rfl⟩
  · rw [hsize]
    exact h.created
  · exact (RunState.attempted_report _ _).trans (List.append_nil _)

/-- An attempt that runs a rule and so makes the attempts of its body. -/
theorem Served.body {depth : Nat} {s₁ : RunState} (hsize : s.tree.size = id + 1)
    (h : Served ctx s.tree.size (s.enter id depth) made s₁) (ok : Bool) :
    Served ctx id s (⟨left + 1, id, s⟩ :: made) (RunState.leave id (ok, s₁)).2 := by
  obtain ⟨hlater, hends, haccounts⟩ := h.accounts.leave id ok
  constructor
  · have hentered : s.Later (s.enter id depth) := .of_tree rfl
    exact hentered.trans (h.later.trans hlater)
  · rw [← hends] at haccounts
    exact haccounts
  · have hpop : (RunState.leave id (ok, s₁)).2.running = s₁.running.tail :=
      running_report _ _
    have henter : (s.enter id depth).running = id :: s.running := s.running_report _
    rw [hpop, h.running, henter, List.tail_cons]
  · have horder := h.order
    rw [hsize, List.range_succ, List.append_assoc] at horder
    rw [hends]
    exact horder

end Served

end RunState

namespace Context

/-- An attempt at the last node of the table, where all the others are accounted for, accounts for
its own and for all that it makes. -/
theorem served_attempt (ctx : Context) (left id : Nat) (s : RunState)
    (h : s.Accounts ctx id) (hsize : s.tree.size = id + 1)
    (hrunning : s.running = s.tree.ancestors id) (hlevel : s.running.length + left = ctx.limit)
    (hnone : (ctx.attempt left id s).2.fault = none) :
    RunState.Served ctx id s (ctx.trace left id s) (ctx.attempt left id s).2 := by
  induction left generalizing id s with
  | zero => exact absurd hnone (fault_attempt_zero ctx id s)
  | succ left ih =>
    have hid : id < s.tree.size := by omega
    have hbegin : List.range id ++ [id] = List.range s.tree.size := by
      rw [hsize, List.range_succ]
    rw [attempt_succ] at hnone ⊢
    rw [trace_succ]
    by_cases hsome : s.fault.isSome
    · rw [if_pos hsome] at hnone
      exact absurd hnone (Option.isSome_iff_ne_none.1 hsome)
    · rw [if_neg hsome] at hnone ⊢
      rw [if_neg hsome]
      cases hrule : ctx.rules.rule? (s.node id).name with
      | none =>
        have htree := s.tree_noteUnresolved ctx id
        have haccounts := h.noteUnresolved hid hrule
        rw [← hsize, ← htree] at haccounts
        exact ⟨.of_tree htree, haccounts, (s.noteUnresolved_spares ctx id).1, by
          rw [htree]; exact hbegin⟩
      | some body =>
        simp only [hrule] at hnone
        have hwork := h.busy_enter hsize hrunning hlevel hrule
        have hcall : ∀ (c : Call) (s : RunState),
            ((ctx.attempt left s.tree.size (s.grow ctx id c.rule c.role)).2.fault = none →
              s.fault = none) ∧
            (s.Busy ctx left id →
              (ctx.attempt left s.tree.size (s.grow ctx id c.rule c.role)).2.fault = none →
              RunState.Served ctx s.tree.size s
                (ctx.trace left s.tree.size (s.grow ctx id c.rule c.role))
                (ctx.attempt left s.tree.size (s.grow ctx id c.rule c.role)).2) := by
          intro c s
          refine ⟨fun hnone => ?_, fun hwork hnone => ?_⟩
          · by_contra hfault
            have hkept := ctx.attempt_of_fault left s.tree.size
              (s := s.grow ctx id c.rule c.role) (Option.isSome_iff_ne_none.2 hfault)
            rw [hkept] at hnone
            exact hfault hnone
          · obtain ⟨hgrown, habove⟩ := hwork.grow c
            have hserved := ih s.tree.size _ hgrown (s.size_grow ctx id c.rule c.role) habove
              hwork.level hnone
            exact ⟨(s.later_grow ctx id c.rule c.role).trans hserved.later, hserved.accounts,
              hserved.running, hserved.order⟩
        have hbody := Expr.follows_step (RunState.chain_served ctx left id) ctx id hcall body
          (s.enter id (ctx.limit - left))
        have hserved := hbody.2 hwork hnone
        exact .body hsize hserved _

theorem accounts_start (ctx : Context) (rule : String) : (RunState.start ctx rule).Accounts ctx 0 where
  rooted := by
    intro n p hparent
    rw [apply_node_start Node.parent ctx rule rfl n] at hparent
    cases hparent
  le_size := Nat.zero_le _
  created := rfl
  attempted := rfl
  evaluations := rfl
  unresolved := rfl
  deepest := rfl

variable {ctx : Context} {rule : String} {p : RawParse}

/-- A run that ends well has attempted the rule of every node of its table, once each and in the
order of the table. It has counted the nodes that it made and the rules that it ran, which are those
of the nodes whose names are defined; it lists the other names as they were first met, and the
deepest nesting is that of the defined node that has the most nodes above it. A collapse leaves all
that as it is. -/
theorem counters_of_rawParse (h : ctx.rawParse rule = .ok p) :
    let ids := List.range p.tree.size
    let defined := ids.filter fun n => (ctx.rules.rule? (p.tree.node n).name).isSome
    let missing := ids.filter fun n => (ctx.rules.rule? (p.tree.node n).name).isNone
    p.counters.nodesCreated = p.tree.size ∧
    (ctx.trace ctx.limit Tree.root (.start ctx rule)).map Attempt.id = ids ∧
    p.journal.toList.filterMap Event.attempted? = ids ∧
    p.counters.evaluations = defined.length ∧
    p.counters.unresolved = (missing.map fun n => (p.tree.node n).name).eraseDups ∧
    p.counters.deepest = (defined.map fun n => (n :: p.tree.ancestors n).length).foldl max 0 ∧
    ∀ collapse, ∃ q, ctx.parse rule collapse = .ok q ∧ q.counters = p.counters ∧
      q.tree.size = p.tree.size := by
  intro ids defined missing
  have hwf := wellFormed_of_rawParse h
  have hrole := role_root_of_rawParse h
  have hparse : ∀ collapse, ctx.parse rule collapse = .ok (p.finish ctx.source collapse) := by
    intro collapse
    rw [parse, h]
    rfl
  rw [rawParse_eq] at h
  split at h
  · cases h
  · next hnone =>
    cases h
    have hserved := ctx.served_attempt ctx.limit Tree.root (.start ctx rule)
      (accounts_start ctx rule) rfl rfl (Nat.zero_add _) hnone
    have haccounts := hserved.accounts
    have hmissing : missing = ids.filter fun n => !ctx.defines _ n :=
      List.filter_congr fun n _ => (Option.not_isSome _).symm
    refine ⟨haccounts.created, hserved.order, haccounts.attempted,
      haccounts.evaluations.trans List.countP_eq_length_filter,
      hmissing ▸ haccounts.unresolved, haccounts.deepest, fun collapse => ?_⟩
    refine ⟨_, hparse collapse, ?_⟩
    cases collapse with
    | false => exact ⟨rfl, rfl⟩
    | true => exact ⟨rfl, (hwf.collapse_spec hrole).2.1.size_eq⟩

/-- A rule that gives up its first alternative, and calls rules that are not defined. -/
def strays : Context where
  source := .ofString "ab"
  rules := .merge .empty .empty (.ofList [
    ("ROOT", .alt [.seq [.ref "A", .ref "ELSEWHERE"],
      .seq [.ref "A", .any [.ref "NOWHERE", .ref "ELSEWHERE", .ref "B"]]]),
    ("A", .byte (.single 97)), ("B", .byte (.single 98))])

/-- Seven nodes are made, two of them for the alternative that is given up. Three attempts meet no
rule, two of them under the same name. -/
theorem counters_of_rawParse_strays :
    ∃ p, strays.rawParse "ROOT" = .ok p ∧ p.tree.reachable = [0, 3, 4, 5, 6] ∧
      p.counters.nodesCreated = 7 ∧
      p.journal.toList.filterMap Event.attempted? = [0, 1, 2, 3, 4, 5, 6] ∧
      p.counters.evaluations = 4 ∧ p.counters.unresolved = ["ELSEWHERE", "NOWHERE"] ∧
      p.counters.deepest = 2 := by
  have hrun : (strays.rawParse "ROOT").toOption.map (fun p => decide
      (p.tree.reachable = [0, 3, 4, 5, 6] ∧ p.tree.size = 7 ∧
        ((List.range p.tree.size).filter fun n =>
          (strays.rules.rule? (p.tree.node n).name).isSome) = [0, 1, 3, 6] ∧
        (((List.range p.tree.size).filter fun n =>
          (strays.rules.rule? (p.tree.node n).name).isNone).map fun n => (p.tree.node n).name) =
            ["ELSEWHERE", "NOWHERE", "ELSEWHERE"] ∧
        ([0, 1, 3, 6].map fun n => (n :: p.tree.ancestors n).length) = [1, 2, 2, 2])) =
      some true := by
    decide +kernel
  cases hp : strays.rawParse "ROOT" with
  | error e =>
    rw [hp] at hrun
    cases hrun
  | ok p =>
    rw [hp] at hrun
    obtain ⟨hreachable, hsize, hdefined, hmissing, hlevels⟩ := of_decide_eq_true (Option.some.inj hrun)
    obtain ⟨hcreated, -, hattempted, hevaluations, hunresolved, hdeepest, -⟩ := counters_of_rawParse hp
    rw [hsize] at hcreated hattempted
    rw [hdefined] at hevaluations hdeepest
    rw [hmissing] at hunresolved
    rw [hlevels] at hdeepest
    exact ⟨p, rfl, hreachable, hcreated, hattempted, hevaluations, hunresolved, hdeepest⟩

end Context

end RankedGrammar
