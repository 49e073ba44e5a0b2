import RankedGrammar.Proofs.Match.Frame
import RankedGrammar.Proofs.Match.Growth

/-!
The table of a run shows what the rules make of branches: every step on a node does with the part of
the table below the node what its growth does with a sprout.
-/
namespace RankedGrammar

namespace Tree

/-- The part of the table below a node as a sprout. -/
def sprout (t : Tree) (id : NodeId) : Sprout := (t.branch id).map fun j => (t.node j).bare

variable {t t' : Tree}

namespace WellFormed

theorem sprout_eq (h : t.WellFormed) (id : Nat) :
    t.sprout id = .mk (t.node id).bare ((t.node id).children.map t.sprout) := by
  rw [sprout, h.branch_eq, Branch.map_mk, List.map_map]
  rfl

theorem preorder_sprout (h : t.WellFormed) (id : Nat) :
    (t.sprout id).preorder = (t.descendants id).map fun j => (t.node j).bare := by
  rw [sprout, Branch.preorder_map, h.descendants_eq]

/-- What a sprout hands on to its branches holds of all that lies below a node. -/
theorem sprout_of_reaches (h : t.WellFormed) {P : Sprout → Prop}
    (hbelow : ∀ {n bs}, P (.mk n bs) → ∀ b ∈ bs, P b) {a d : Nat} (ha : P (t.sprout a))
    (hd : t.Reaches a d) : P (t.sprout d) := by
  induction hd with
  | refl => exact ha
  | tail _ hc ih =>
    rw [h.sprout_eq] at ih
    exact hbelow ih _ (List.mem_map_of_mem hc)

theorem weight_eq (h : t.WellFormed) : t.weight = Sprout.weight ∘ t.sprout := by
  funext id
  rw [Function.comp_apply, Sprout.weight, h.preorder_sprout, List.countP_map]
  rfl

theorem expected_eq (h : t.WellFormed) : t.expected = Sprout.expected ∘ t.sprout := by
  funext id
  rw [Function.comp_apply, Sprout.expected, h.preorder_sprout, List.foldl_map]
  rfl

/-- Tables that agree above a number have the same sprouts there. -/
theorem sprout_congr (h : t.WellFormed) (h' : t'.WellFormed) {id c : Nat}
    (hsame : ∀ j, id < j → j < t.size → t'.node j = t.node j) (hc : id < c) (hlt : c < t.size) :
    t'.sprout c = t.sprout c := by
  have hbelow : ∀ d, t.Reaches c d → t'.node d = t.node d := by
    intro d hd
    have hle := h.le_of_reaches hd
    exact hsame d (by omega) (h.lt_size_of_reaches hlt hd)
  have hbranch := h.branch_congr h' fun d hd => congrArg Node.children (hbelow d hd)
  unfold sprout
  rw [hbranch]
  refine Branch.map_congr fun d hd => ?_
  rw [hbelow d (h.mem_preorder_branch.1 hd)]

theorem sprout_modify_of_lt (h : t.WellFormed) {id : Nat} {f : Node → Node}
    (h' : (t.modify id f).WellFormed) {c : Nat} (hc : id < c) (hlt : c < t.size) :
    (t.modify id f).sprout c = t.sprout c :=
  h.sprout_congr h' (fun _ hj _ => node_modify_of_ne t f (Nat.ne_of_lt hj)) hc hlt

theorem sprout_modify_self (h : t.WellFormed) {id : Nat} {f : Node → Node}
    (h' : (t.modify id f).WellFormed) (hid : id < t.size) :
    (t.modify id f).sprout id =
      .mk (f (t.node id)).bare ((f (t.node id)).children.map t.sprout) := by
  have hself := node_modify_self t f hid
  rw [h'.sprout_eq, hself]
  congr 1
  refine List.map_congr_left fun c hc => ?_
  rw [← hself] at hc
  have hlt := h'.lt_size hc
  rw [size_modify] at hlt
  exact h.sprout_modify_of_lt h' (h'.lt_of_mem hc) hlt

end WellFormed

end Tree

/-- The run has gone well so far, and the part of the table below the node is the sprout. -/
structure RunState.Shows (id : Nat) (s : RunState) (b : Sprout) : Prop where
  wellFormed : s.tree.WellFormed
  lt : id < s.tree.size
  fault : s.fault = none
  sprout : s.tree.sprout id = b

namespace RunState

variable {id : Nat} {s s' : RunState} {b : Sprout}

namespace Shows

theorem label (h : s.Shows id b) : b.label = (s.node id).bare := by
  rw [← h.sprout, h.wellFormed.sprout_eq]
  rfl

theorem branches (h : s.Shows id b) : b.branches = (s.node id).children.map s.tree.sprout := by
  rw [← h.sprout, h.wellFormed.sprout_eq]
  rfl

theorem cursor (h : s.Shows id b) : b.cursor = s.cursor id := by
  rw [Sprout.cursor, h.label]
  rfl

theorem length_branches (h : s.Shows id b) :
    b.branches.length = (s.node id).children.length := by
  rw [h.branches, List.length_map]

theorem congr (h : s.Shows id b) (htree : s'.tree = s.tree) (hfault : s'.fault = s.fault) :
    s'.Shows id b := by
  obtain ⟨tree, counters, fault, journal⟩ := s'
  subst htree hfault
  exact ⟨h.wellFormed, h.lt, h.fault, h.sprout⟩

theorem modify (h : s.Shows id b) {f : Node → Node} (hwf : (s.modify id f).tree.WellFormed) :
    (s.modify id f).Shows id
      (.mk (f (s.node id)).bare ((f (s.node id)).children.map s.tree.sprout)) where
  wellFormed := hwf
  lt := by rw [size_modify]; exact h.lt
  fault := h.fault
  sprout := h.wellFormed.sprout_modify_self hwf h.lt

/-- A change to the node itself changes the label. -/
theorem relabel (h : s.Shows id b) {f : Node → Node} {n : Node}
    (hparent : (f (s.node id)).parent = (s.node id).parent)
    (hchildren : (f (s.node id)).children = (s.node id).children)
    (hn : (f (s.node id)).bare = n) : (s.modify id f).Shows id (.mk n b.branches) := by
  have hmod := h.modify (h.wellFormed.modify hparent hchildren)
  rw [hn, hchildren, ← h.branches] at hmod
  exact hmod

theorem moveTo (h : s.Shows id b) (point : Nat) : (s.moveTo id point).Shows id (b.moveTo point) := by
  refine h.relabel rfl rfl ?_
  rw [h.label]
  rfl

end Shows

/-- What is below a node that a step leaves alone stays as it is. -/
theorem Extends.sprout_eq (h : s.Extends id s') (hs : s.tree.WellFormed) {c : Nat} (hc : id < c)
    (hlt : c < s.tree.size) : s'.tree.sprout c = s.tree.sprout c :=
  hs.sprout_congr h.wellFormed (fun j hj hsize => h.node_eq j hsize (Nat.ne_of_gt hj)) hc hlt

end RunState

namespace Terminal

/-- The terminal looks at no link. -/
def Blind (f : Terminal) : Prop := ∀ n, f n.bare = ((f n).1, (f n).2.bare)

theorem blind_byte (src : Source) (k : ByteClass) : (byte src k).Blind := by
  intro n
  unfold byte
  by_cases hb : (src.byteAt? n.point).any k.contains = true
  · have hb' : (src.byteAt? n.bare.point).any k.contains = true := hb
    rw [if_pos hb, if_pos hb']
    rfl
  · have hb' : ¬ (src.byteAt? n.bare.point).any k.contains = true := hb
    rw [if_neg hb, if_neg hb']

theorem blind_takeRead (src : Source) (reader : List Char → Option (List Char)) :
    (takeRead src reader).Blind := by
  intro n
  unfold takeRead
  have hsame : src.remaining n.bare.point = src.remaining n.point := rfl
  rw [hsame]
  cases reader (src.remaining n.point) with
  | none => rfl
  | some cs => rfl

theorem blind_attached (src : Source) : (attached src).Blind := by
  intro n
  unfold attached
  have hsame : n.bare.role.attached? = n.role.attached? := rfl
  rw [hsame]
  cases n.role.attached? with
  | none => rfl
  | some t =>
    dsimp only
    split
    · rfl
    · exact blind_takeRead src _ n

end Terminal

theorem Expr.Own.blind {src : Source} {e : Expr} {f : Terminal} (h : e.Own src f) : f.Blind := by
  cases h with
  | byte k => exact Terminal.blind_byte src k
  | text t => exact Terminal.blind_takeRead src _
  | attached => exact Terminal.blind_attached src
  | pattern p => exact Terminal.blind_takeRead src _
  | _ => exact fun _ => rfl

theorem Node.missed_bare (src : Source) (c : Call) (n : Node) :
    n.bare.missed src c = (n.missed src c).bare := by
  unfold missed
  cases c.expectation? with
  | none => rfl
  | some name =>
    have hsame : n.bare.role = n.role := rfl
    dsimp only
    rw [hsame]
    split <;> rfl

namespace Step
open RunState (Shows)

variable {id : Nat} {r : Step} {rs : List Step} {g : Growth} {gs : List Growth} {s : RunState}
  {b : Sprout}

/-- The outcome of a step is that of a growth: where nothing comes of this, the run is spoilt. -/
def Outcome {α : Type} (id : Nat) (grown : Option (α × Sprout)) (out : α × RunState) : Prop :=
  match grown with
  | some (a, b) => out.1 = a ∧ out.2.Shows id b
  | none => out.2.fault.isSome

/-- The step does with the table what the growth does with a sprout. -/
structure Simulates (id : Nat) (r : Step) (g : Growth) : Prop where
  local_step : Local id r
  outcome : ∀ s b, s.Shows id b → Outcome id (g b) (r s)

/-- A step that goes well does with the table what the growth does with the sprout. -/
theorem Simulates.exists_of_fault (h : Simulates id r g) (hs : s.Shows id b)
    (hfault : (r s).2.fault = none) :
    ∃ ok b', g b = some (ok, b') ∧ (r s).1 = ok ∧ (r s).2.Shows id b' := by
  have hout := h.outcome s b hs
  cases hg : g b with
  | none =>
    rw [hg] at hout
    have hsome : (r s).2.fault.isSome = true := hout
    rw [hfault] at hsome
    cases hsome
  | some grown =>
    rw [hg] at hout
    exact ⟨_, _, rfl, hout⟩

theorem Local.fault (h : Local id r) (hs : s.tree.WellFormed) (hid : id < s.tree.size)
    (hfault : s.fault.isSome) : (r s).2.fault.isSome := by
  rw [(h s hs hid).fault hfault]
  exact hfault

theorem simulates_const (ok : Bool) : Simulates id (fun s => (ok, s)) (Growth.const ok) :=
  ⟨fun _ hs _ => .refl hs, fun _ _ h => ⟨rfl, h⟩⟩

theorem simulates_own {f : Terminal} (hkeeps : f.Keeps) (hblind : f.Blind) :
    Simulates id (own id f) (Growth.own f) where
  local_step := local_own hkeeps
  outcome := by
    intro s b h
    have hlabel := hblind (s.node id)
    rw [← h.label] at hlabel
    obtain ⟨horigin, hchildren⟩ := hkeeps (s.node id)
    unfold Growth.own
    rw [hlabel]
    refine ⟨rfl, ?_⟩
    exact h.relabel (f := fun _ => (f (s.node id)).2) horigin.parent hchildren rfl

/-- What a step reports does not matter. -/
theorem Simulates.congr {r' : Step} (h : Simulates id r g) (hok : ∀ s, (r' s).1 = (r s).1)
    (htree : ∀ s, (r' s).2.tree = (r s).2.tree) (hfault : ∀ s, (r' s).2.fault = (r s).2.fault) :
    Simulates id r' g where
  local_step := fun s hs hid => (h.local_step s hs hid).congr (htree s) (hfault s)
  outcome := by
    intro s b hs
    have hout := h.outcome s b hs
    cases hg : g b with
    | none =>
      rw [hg] at hout
      exact (congrArg Option.isSome (hfault s)).trans hout
    | some out =>
      rw [hg] at hout
      exact ⟨(hok s).trans hout.1, hout.2.congr (htree s) (hfault s)⟩

theorem simulates_ifElse {yes no : Step} {gyes gno : Growth} (h : Simulates id r g)
    (hyes : Simulates id yes gyes) (hno : Simulates id no gno) :
    Simulates id (ifElse r yes no) (Growth.ifElse g gyes gno) where
  local_step := local_ifElse h.local_step hyes.local_step hno.local_step
  outcome := by
    intro s b hs
    have hout := h.outcome s b hs
    have hext := h.local_step s hs.wellFormed hs.lt
    have hlt := Nat.lt_of_lt_of_le hs.lt hext.size_le
    unfold Growth.ifElse ifElse
    cases hg : g b with
    | none =>
      rw [hg] at hout
      have hlater : ∀ {next : Step}, Local id next → (next (r s).2).2.fault.isSome := fun hnext =>
        hnext.fault hext.wellFormed hlt hout
      generalize r s = run at hlater ⊢
      obtain ⟨ok, s'⟩ := run
      cases ok with
      | true => exact hlater hyes.local_step
      | false => exact hlater hno.local_step
    | some out =>
      obtain ⟨ok, b'⟩ := out
      rw [hg] at hout
      obtain ⟨hok, hshows⟩ := hout
      generalize r s = run at hok hshows ⊢
      obtain ⟨ok', s'⟩ := run
      cases hok
      cases ok' with
      | true => exact hyes.outcome s' b' hshows
      | false => exact hno.outcome s' b' hshows

theorem simulates_negate (h : Simulates id r g) : Simulates id (negate r) (Growth.negate g) := by
  rw [negate_eq, Growth.negate_eq]
  exact simulates_ifElse h (simulates_const false) (simulates_const true)

abbrev SimulatesAll (id : Nat) : List Step → List Growth → Prop := List.Forall₂ (Simulates id)

theorem SimulatesAll.local_step (h : SimulatesAll id rs gs) : ∀ r ∈ rs, Local id r := by
  induction h with
  | nil => simp
  | cons hr _ ih =>
    intro x hx
    cases List.mem_cons.1 hx with
    | inl heq => exact heq ▸ hr.local_step
    | inr hx => exact ih x hx

theorem simulates_all (h : SimulatesAll id rs gs) : Simulates id (all rs) (Growth.all gs) := by
  induction h with
  | nil => exact simulates_const true
  | cons hr _ ih =>
    rw [all_cons, Growth.all_cons]
    exact simulates_ifElse hr ih (simulates_const false)

theorem simulates_any (h : SimulatesAll id rs gs) : Simulates id (any rs) (Growth.any gs) := by
  induction h with
  | nil => exact simulates_const false
  | cons hr _ ih =>
    rw [any_cons, Growth.any_cons]
    exact simulates_ifElse hr (simulates_const true) ih

theorem simulates_sequence (h : SimulatesAll id rs gs) :
    Simulates id (sequence id rs) (Growth.sequence gs) where
  local_step := local_sequence h.local_step
  outcome := by
    intro s b hs
    have hout := (simulates_all h).outcome s b hs
    unfold Growth.sequence sequence
    cases hrun : all rs s with
    | mk ok s' =>
      rw [hrun] at hout
      cases hg : Growth.all gs b with
      | none =>
        rw [hg] at hout
        cases ok with
        | true => exact hout
        | false => exact hout
      | some out =>
        obtain ⟨ok', b'⟩ := out
        rw [hg] at hout
        obtain ⟨hok, hshows⟩ := hout
        cases hok
        cases ok with
        | true => exact ⟨rfl, hshows⟩
        | false =>
          refine ⟨rfl, ?_⟩
          rw [hs.cursor]
          exact hshows.moveTo (s.cursor id)

def Trial.map {κ κ' : Type} (f : κ → κ') (t : Trial κ) : Trial κ' :=
  ⟨t.matched, t.point, t.children.map f⟩

def Ranked.map {κ κ' : Type} (f : κ → κ') (x : Ranked κ) : Ranked κ' :=
  ⟨x.number, x.weight, x.trial.map f⟩

section Ranking

variable {κ κ' : Type}

theorem totalWeight_map (f : κ → κ') (weight : κ' → Nat) (xs : List κ) :
    totalWeight weight (xs.map f) = totalWeight (weight ∘ f) xs := by
  induction xs with
  | nil => rfl
  | cons x xs ih => rw [List.map_cons, totalWeight, ih, totalWeight, Function.comp_apply]

theorem ranked_map (f : κ → κ') (weight : κ' → Nat) (number : Nat) (ts : List (Trial κ)) :
    ranked weight number (ts.map (Trial.map f)) =
      (ranked (weight ∘ f) number ts).map (Ranked.map f) := by
  induction ts generalizing number with
  | nil => rfl
  | cons t ts ih =>
    rw [List.map_cons, ranked, ranked, ih]
    have hmatched : (t.map f).matched = t.matched := rfl
    rw [hmatched]
    split
    · rw [List.map_cons, Ranked.map, Trial.map, totalWeight_map]
    · rfl

theorem heaviest_map (f : κ → κ') (xs : List (Ranked κ)) :
    heaviest (xs.map (Ranked.map f)) = (heaviest xs).map (Ranked.map f) := by
  induction xs with
  | nil => rfl
  | cons x xs ih =>
    rw [List.map_cons, heaviest, heaviest, ih]
    cases heaviest xs with
    | none => rfl
    | some best =>
      have hweight : (x.map f).weight = x.weight ∧ (best.map f).weight = best.weight := ⟨rfl, rfl⟩
      simp only [Option.map_some, hweight.1, hweight.2]
      split <;> rfl

end Ranking

theorem shows_keepChildren {base : Nat} (hs : s.Shows id b)
    (hwf : (s.keepChildren id base).tree.WellFormed) :
    (s.keepChildren id base).Shows id (.mk b.label (b.branches.take base)) := by
  rw [hs.branches, ← List.map_take, hs.label]
  exact hs.modify hwf

theorem shows_addChildren {cs : List NodeId} (hs : s.Shows id b)
    (hwf : (s.addChildren id cs).tree.WellFormed) :
    (s.addChildren id cs).Shows id (.mk b.label (b.branches ++ cs.map s.tree.sprout)) := by
  rw [hs.branches, ← List.map_append, hs.label]
  exact hs.modify hwf

/-- What children have grown stays as it is when they are cut off and the node goes on. -/
theorem map_sprout_childrenFrom {s' : RunState} {base : Nat} (hs : s.tree.WellFormed)
    (hkeep : (s.keepChildren id base).tree.WellFormed)
    (hext : (s.keepChildren id base).Extends id s') :
    (s.childrenFrom id base).map s'.tree.sprout = (s.childrenFrom id base).map s.tree.sprout := by
  refine List.map_congr_left fun c hc => ?_
  have hmem : c ∈ (s.tree.node id).children := List.mem_of_mem_drop hc
  have hlt := hs.lt_size hmem
  have hidc := hs.lt_of_mem hmem
  have hsize : (s.keepChildren id base).tree.size = s.tree.size := RunState.size_modify _ _ _
  have hkept : (s.keepChildren id base).tree.sprout c = s.tree.sprout c :=
    hs.sprout_modify_of_lt hkeep hidc hlt
  rw [hext.sprout_eq hkeep hidc (hsize ▸ hlt), hkept]

theorem simulates_trials (h : SimulatesAll id rs gs) (point : Nat) {base : Nat}
    (hs : s.Shows id b) (hbase : base = b.branches.length) :
    match Growth.trials point base gs b with
    | some (ts, b') => (trials id point base rs s).2.Shows id b' ∧
        ts = (trials id point base rs s).1.map
          (Trial.map (trials id point base rs s).2.tree.sprout)
    | none => (trials id point base rs s).2.fault.isSome := by
  induction h generalizing s b with
  | nil => exact ⟨hs, rfl⟩
  | @cons r g rs gs hr hrest ih =>
    have hlocal := SimulatesAll.local_step hrest
    have hmoved := hs.moveTo point
    have hbase' : base = (s.node id).children.length := hbase.trans hs.length_branches
    have hmove : s.Extends id (s.moveTo id point) :=
      (RunState.Extends.refl hs.wellFormed).moveTo hs.lt point
    have htried : s.Extends id (r (s.moveTo id point)).2 :=
      hmove.trans hs.lt (hr.local_step _ hmoved.wellFormed hmoved.lt)
    have hout := hr.outcome _ _ hmoved
    rw [trials_cons, Growth.trials]
    generalize r (s.moveTo id point) = out at htried hout
    obtain ⟨matched, tried⟩ := out
    have hkeep := htried.keepChildren hs.wellFormed hs.lt hbase'
    have hid := Nat.lt_of_lt_of_le hs.lt hkeep.size_le
    obtain ⟨new, hnew, -⟩ := htried.children
    have hkept : base = ((tried.keepChildren id base).node id).children.length := by
      rw [tried.children_keepChildren (Nat.lt_of_lt_of_le hs.lt htried.size_le), hnew, hbase',
        List.take_left]
    obtain ⟨hext, -, -⟩ := trials_spec hlocal point hkeep.wellFormed hid hkept
    cases hg : g (b.moveTo point) with
    | none =>
      rw [hg] at hout
      have hfault : (tried.keepChildren id base).fault.isSome := hout
      show (trials id point base rs (tried.keepChildren id base)).2.fault.isSome
      rw [hext.fault hfault]
      exact hfault
    | some grown =>
      obtain ⟨ok, b₁⟩ := grown
      rw [hg] at hout
      obtain ⟨hok, hshows⟩ := hout
      have hshows' := shows_keepChildren hshows hkeep.wellFormed
      have hnext := ih hshows' (by rw [hshows'.length_branches, ← hkept])
      cases hrest : Growth.trials point base gs (.mk b₁.label (b₁.branches.take base)) with
      | none =>
        rw [hrest] at hnext
        simp only [hrest]
        exact hnext
      | some grown =>
        obtain ⟨ts, b'⟩ := grown
        rw [hrest] at hnext
        obtain ⟨hfinal, hts⟩ := hnext
        simp only [hrest]
        refine ⟨hfinal, ?_⟩
        -- the candidates after the first leave alone what the first has grown
        have hsprouts : b₁.branches.drop base = (tried.childrenFrom id base).map
            (trials id point base rs (tried.keepChildren id base)).2.tree.sprout := by
          rw [hshows.branches, ← List.map_drop]
          exact (map_sprout_childrenFrom hshows.wellFormed hkeep.wellFormed hext).symm
        rw [List.map_cons, ← hts, Trial.map, ← hsprouts, hshows.cursor]
        cases hok
        rfl

theorem expectedOf_eq (hs : s.tree.WellFormed) (ids : List NodeId) :
    s.expectedOf ids = Sprout.expectedOf (ids.map s.tree.sprout) := by
  rw [RunState.expectedOf, Sprout.expectedOf, List.foldl_map, hs.expected_eq]
  rfl

theorem settle_some {ts : List (Trial NodeId)} {best : Ranked NodeId} (point : Nat)
    (hfault : s.fault = none)
    (hbest : heaviest (ranked (s.moveTo id point).tree.weight 1 ts) = some best) :
    settle id point (ts, s) = (true, (((s.moveTo id point).report (.adopt id
      ((s.moveTo id point).node id).name best.number ts.length best.weight)).addChildren id
        best.trial.children).moveTo id best.trial.point) := by
  have hnone : ¬ (s.moveTo id point).fault.isSome = true := by
    rw [RunState.moveTo, RunState.fault_modify, hfault]
    simp
  simp only [settle, if_neg hnone, hbest]

theorem settle_none {ts : List (Trial NodeId)} (point : Nat) (hfault : s.fault = none)
    (hbest : heaviest (ranked (s.moveTo id point).tree.weight 1 ts) = none) :
    settle id point (ts, s) = (false, (s.moveTo id point).addExpected id
      ((s.moveTo id point).expectedOf (ts.flatMap Trial.children))) := by
  have hnone : ¬ (s.moveTo id point).fault.isSome = true := by
    rw [RunState.moveTo, RunState.fault_modify, hfault]
    simp
  simp only [settle, if_neg hnone, hbest]

/-- The outcome of an alternation, told from the trials with their sprouts. -/
theorem outcome_settle {s₀ : RunState} {ts : List (Trial NodeId)} (point : Nat)
    (hs₀ : s₀.tree.WellFormed) (hid : id < s₀.tree.size) (hext : s₀.Extends id s)
    (hsame : (s.node id).children = (s₀.node id).children) (hfits : ∀ t ∈ ts, t.Fits id s₀ s)
    (hs : s.Shows id b) :
    Outcome id (some (Growth.settle point (ts.map (Trial.map s.tree.sprout)) b))
      (settle id point (ts, s)) := by
  have hmove : s.Extends id (s.moveTo id point) :=
    (RunState.Extends.refl hs.wellFormed).moveTo hs.lt point
  have hmoved := hs.moveTo point
  have hchildren : ((s.moveTo id point).node id).children = (s₀.node id).children := by
    rw [RunState.moveTo, RunState.node_modify_self s _ hs.lt, hsame]
  -- moving the cursor leaves alone what the candidates have grown
  have hsprouts : ts.map (Trial.map s.tree.sprout) =
      ts.map (Trial.map (s.moveTo id point).tree.sprout) := by
    refine List.map_congr_left fun t ht => ?_
    unfold Trial.map
    congr 1
    refine List.map_congr_left fun c hc => ?_
    obtain ⟨hge, hlt, -⟩ := (hfits t ht).new c hc
    exact (hmove.sprout_eq hs.wellFormed (Nat.lt_of_lt_of_le hid hge) hlt).symm
  have hranked : heaviest (ranked Sprout.weight 1 (ts.map (Trial.map s.tree.sprout))) =
      (heaviest (ranked (s.moveTo id point).tree.weight 1 ts)).map
        (Ranked.map (s.moveTo id point).tree.sprout) := by
    rw [hsprouts, ranked_map, ← hmoved.wellFormed.weight_eq, heaviest_map]
  unfold Growth.settle
  rw [hranked]
  cases hbest : heaviest (ranked (s.moveTo id point).tree.weight 1 ts) with
  | none =>
    rw [settle_none point hs.fault hbest]
    refine ⟨rfl, hmoved.relabel rfl rfl ?_⟩
    have hflat : (ts.map (Trial.map (s.moveTo id point).tree.sprout)).flatMap Trial.children =
        (ts.flatMap Trial.children).map (s.moveTo id point).tree.sprout := by
      rw [List.flatMap_map, List.map_flatMap]
      rfl
    rw [hsprouts, hflat, ← expectedOf_eq hmoved.wellFormed]
    show ((s.moveTo id point).node id).bare.addExpected _ = _
    rw [← hmoved.label]
    rfl
  | some best =>
    rw [settle_some point hs.fault hbest]
    refine ⟨rfl, ?_⟩
    have hfit := (hfits best.trial (mem_of_ranked (mem_of_heaviest hbest)).1).later hid hmove
    have hadd := extends_adopt hs₀ hid (hext.trans hid hmove) hchildren hfit
    exact ((shows_addChildren hmoved hadd.wellFormed).moveTo best.trial.point).congr rfl rfl

theorem simulates_alternation (h : SimulatesAll id rs gs) :
    Simulates id (alternation id rs) (Growth.alternation gs) where
  local_step := local_alternation h.local_step
  outcome := by
    intro s b hs
    have hnoted : s.noteAlternation.Shows id b := hs.congr rfl rfl
    obtain ⟨hext, hsame, hfits⟩ :=
      trials_spec h.local_step (s.cursor id) hnoted.wellFormed hnoted.lt rfl
    have hout := simulates_trials h (s.cursor id) hnoted hs.length_branches.symm
    unfold Growth.alternation alternation
    rw [hs.cursor, hs.length_branches]
    cases hg : Growth.trials (s.cursor id) (s.node id).children.length gs b with
    | none =>
      rw [hg] at hout
      have hfault : ((trials id (s.cursor id) (s.node id).children.length rs
          s.noteAlternation).2.moveTo id (s.cursor id)).fault.isSome := hout
      show (settle id (s.cursor id) (trials id (s.cursor id) (s.node id).children.length rs
        s.noteAlternation)).2.fault.isSome
      unfold settle
      dsimp only
      rw [if_pos hfault]
      exact hfault
    | some grown =>
      obtain ⟨ts, b'⟩ := grown
      rw [hg] at hout
      obtain ⟨hshows, hts⟩ := hout
      rw [hts]
      exact outcome_settle (s.cursor id) hnoted.wellFormed hnoted.lt hext hsame hfits hshows

theorem shows_takeBack {s₀ : RunState} (point : Nat) (hs₀ : s₀.tree.WellFormed)
    (hid : id < s₀.tree.size) (hext : s₀.Extends id s) (hs : s.Shows id b) :
    (takeBack id point (s₀.node id).children.length s).Shows id
      (Growth.takeBack point (s₀.node id).children.length b) := by
  have hkeep := hext.keepChildren hs₀ hid rfl
  have hkept := shows_keepChildren hs hkeep.wellFormed
  generalize (s₀.node id).children.length = base at *
  have hdropped : s.expectedOf (s.childrenFrom id base) =
      Sprout.expectedOf (b.branches.drop base) := by
    rw [expectedOf_eq hs.wellFormed, hs.branches, ← List.map_drop]
    rfl
  unfold takeBack Growth.takeBack
  dsimp only
  rw [hdropped]
  refine RunState.Shows.moveTo (b := .mk (b.label.addExpected (Sprout.expectedOf
    (b.branches.drop base))) (b.branches.take base)) (hkept.relabel rfl rfl ?_) point
  have hlabel := hkept.label
  rw [Branch.label_mk] at hlabel
  rw [hlabel]
  rfl

theorem outcome_turns (h : Simulates id r g) (fuel count : Nat) (hs : s.Shows id b) :
    Outcome id (Growth.turns g fuel count b) (turns id r fuel count s) := by
  induction fuel generalizing count s b with
  | zero => exact ⟨rfl, hs⟩
  | succ fuel ih =>
    have hout := h.outcome s b hs
    have hext := h.local_step s hs.wellFormed hs.lt
    rw [Growth.turns, turns]
    generalize r s = out at hout hext
    obtain ⟨matched, s'⟩ := out
    cases hg : g b with
    | none =>
      rw [hg] at hout
      have hlater : (turns id r fuel (count + 1) s').2.fault.isSome := by
        rw [(extends_turns h.local_step fuel (count + 1) hext.wellFormed
          (Nat.lt_of_lt_of_le hs.lt hext.size_le)).fault hout]
        exact hout
      dsimp only
      split
      · exact hlater
      · exact hout
    | some grown =>
      obtain ⟨ok, b'⟩ := grown
      rw [hg] at hout
      obtain ⟨hok, hshows⟩ := hout
      cases hok
      dsimp only at hshows ⊢
      rw [hs.cursor, hshows.cursor]
      by_cases hon : (matched && s.cursor id < s'.cursor id) = true
      · rw [if_pos hon, if_pos hon]
        exact ih _ hshows
      · rw [if_neg hon, if_neg hon, hs.length_branches]
        exact ⟨rfl, shows_takeBack _ hs.wellFormed hs.lt hext hshows⟩

theorem outcome_iterate (ctx : Context) (h : Simulates id r g) (hs : s.Shows id b) :
    Outcome id (Growth.iterate ctx.source g b) (iterate ctx id r s) := by
  unfold Growth.iterate iterate
  rw [hs.cursor]
  exact outcome_turns h _ 0 hs

theorem node_grow_child (ctx : Context) (c : Call) (hid : id < s.tree.size) :
    (s.grow ctx id c.rule c.role).node s.tree.size =
      .fresh c.rule (some id) c.role (ctx.rules.rule? c.rule).isSome (s.cursor id) := by
  unfold RunState.grow RunState.addChildren
  have hne : id ≠ s.tree.size := Nat.ne_of_lt hid
  exact (Tree.node_modify_of_ne _ _ hne).trans (Tree.node_push_size s.tree _)

theorem shows_grow (ctx : Context) (c : Call) (hs : s.Shows id b) :
    (s.grow ctx id c.rule c.role).Shows s.tree.size (Growth.seed ctx c b.cursor) := by
  have hext := extends_grow ctx c.rule c.role hs.wellFormed hs.lt
  have hsize : (s.grow ctx id c.rule c.role).tree.size = s.tree.size + 1 := s.size_grow ctx id _ _
  have hnode : (s.grow ctx id c.rule c.role).tree.node s.tree.size =
      .fresh c.rule (some id) c.role (ctx.rules.rule? c.rule).isSome (s.cursor id) :=
    node_grow_child ctx c hs.lt
  refine ⟨hext.wellFormed, by omega, hs.fault, ?_⟩
  rw [hext.wellFormed.sprout_eq, hnode, hs.cursor]
  rfl

theorem simulates_counted (ctx : Context) (test : Nat → Bool) (h : Simulates id r g) :
    Simulates id (counted ctx id test r) (Growth.counted ctx.source test g) where
  local_step := fun _ hs hid => extends_iterate ctx h.local_step hs hid
  outcome := by
    intro s b hs
    have hout := outcome_iterate ctx h hs
    unfold Growth.counted
    cases hg : Growth.iterate ctx.source g b with
    | none =>
      rw [hg] at hout
      exact hout
    | some grown =>
      obtain ⟨count, b'⟩ := grown
      rw [hg] at hout
      exact ⟨congrArg test hout.1, hout.2⟩

theorem node_grow_self (ctx : Context) (c : Call) (hid : id < s.tree.size) :
    (s.grow ctx id c.rule c.role).node id =
      { s.node id with children := (s.node id).children ++ [s.tree.size] } := by
  have hpush : ∀ n, (s.tree.push n).size - 1 = s.tree.size := by
    intro n
    rw [Tree.size_push]
    rfl
  unfold RunState.grow RunState.addChildren
  dsimp only
  rw [RunState.node_modify_self _ _ (by rw [Tree.size_push]; exact Nat.lt_succ_of_lt hid), hpush]
  have hsame : ∀ n, (s.tree.push n).node id = s.tree.node id :=
    fun n => Tree.node_push_of_lt s.tree n hid
  unfold RunState.node
  rw [hsame]

/-- When the rule of a new child has run, the node has one branch more. -/
theorem shows_below (ctx : Context) (c : Call) {s' : RunState} {child : Sprout}
    (hs : s.Shows id b) (hrun : (s.grow ctx id c.rule c.role).Extends s.tree.size s')
    (hchild : s'.Shows s.tree.size child) :
    s'.Shows id (.mk b.label (b.branches ++ [child])) := by
  have hgrow := extends_grow ctx c.rule c.role hs.wellFormed hs.lt
  have hwork := extends_below hs.lt hgrow hrun
  have hnode := hrun.node_eq id (Nat.lt_of_lt_of_le hs.lt hgrow.size_le) (Nat.ne_of_lt hs.lt)
  rw [node_grow_self ctx c hs.lt] at hnode
  refine ⟨hwork.wellFormed, Nat.lt_of_lt_of_le hs.lt hwork.size_le, hchild.fault, ?_⟩
  rw [hwork.wellFormed.sprout_eq]
  show Branch.mk (s'.node id).bare ((s'.node id).children.map s'.tree.sprout) = _
  rw [hnode, List.map_append, List.map_singleton, hchild.sprout, hs.label, hs.branches]
  have hold : (s.node id).children.map s'.tree.sprout =
      (s.node id).children.map s.tree.sprout := by
    refine List.map_congr_left fun d hd => ?_
    exact hwork.sprout_eq hs.wellFormed (hs.wellFormed.lt_of_mem hd) (hs.wellFormed.lt_size hd)
  rw [hold]
  rfl

theorem simulates_call (ctx : Context) {run : NodeId → Step} {grow : Growth} (c : Call)
    (h : ∀ child, Simulates child (run child) grow) :
    Simulates id (call ctx run id c) (Growth.call ctx grow c) where
  local_step := local_call ctx c fun child => (h child).local_step
  outcome := by
    intro s b hs
    have hseed := shows_grow ctx c hs
    have hrun := (h s.tree.size).local_step _ hseed.wellFormed hseed.lt
    have hout := (h s.tree.size).outcome _ _ hseed
    unfold call Growth.call
    generalize run s.tree.size (s.grow ctx id c.rule c.role) = out at hrun hout ⊢
    obtain ⟨ok, s'⟩ := out
    cases hg : grow (Growth.seed ctx c b.cursor) with
    | none =>
      rw [hg] at hout
      cases ok with
      | true => exact hout
      | false => exact hout
    | some grown =>
      obtain ⟨ok', child⟩ := grown
      rw [hg] at hout
      obtain ⟨hok, hchild⟩ := hout
      have hbelow := shows_below ctx c hs hrun hchild
      cases hok
      cases ok with
      | true =>
        refine ⟨rfl, ?_⟩
        dsimp only
        rw [hchild.cursor]
        exact hbelow.moveTo (s'.cursor s.tree.size)
      | false =>
        refine ⟨rfl, ?_⟩
        obtain ⟨horigin, hchildren⟩ := Node.keeps_missed ctx.source c (s'.node id)
        have hlabel := hbelow.label
        rw [Branch.label_mk] at hlabel
        dsimp only
        rw [hlabel, Node.missed_bare]
        exact hbelow.relabel horigin.parent hchildren rfl

end Step

theorem Expr.simulatesAll_of_forall {ctx : Context} {run : NodeId → Step} {grow : Growth} {id : Nat}
    {es : List Expr} (h : ∀ e ∈ es, Step.Simulates id (e.step ctx run id) (e.growth ctx grow)) :
    Step.SimulatesAll id (Expr.steps ctx run id es) (Expr.growths ctx grow es) := by
  rw [steps_eq, growths_eq]
  exact List.forall₂_map_left_iff.2 (List.forall₂_map_right_iff.2 (List.forall₂_same.2 h))

theorem Expr.simulates_step (ctx : Context) {run : NodeId → Step} {grow : Growth} (id : Nat)
    (h : ∀ child, Step.Simulates child (run child) grow) (e : Expr) :
    Step.Simulates id (e.step ctx run id) (e.growth ctx grow) := by
  induction e using Expr.induct ctx.source with
  | call c =>
    rw [c.step_body, c.growth_body]
    exact Step.simulates_call ctx c h
  | seq es ih => exact Step.simulates_sequence (simulatesAll_of_forall ih)
  | alt es ih => exact Step.simulates_alternation (simulatesAll_of_forall ih)
  | many e ih => exact Step.simulates_counted ctx (fun _ => true) ih
  | tally e least ih =>
    exact (Step.simulates_counted ctx (fun count => least ≤ count) ih).congr (fun _ => rfl)
      (fun _ => rfl) fun _ => rfl
  | counted e test ih => exact Step.simulates_counted ctx test ih
  | own hown =>
    rw [hown.step_eq, hown.growth_eq]
    exact Step.simulates_own hown.keeps hown.blind
  | probe label =>
    exact (Step.simulates_const true).congr (fun _ => rfl) (fun _ => rfl) fun _ => rfl
  | not e ih => exact Step.simulates_negate ih
  | all es ih => exact Step.simulates_all (simulatesAll_of_forall ih)
  | any es ih => exact Step.simulates_any (simulatesAll_of_forall ih)
  | ifElse e yes no ihe ihyes ihno => exact Step.simulates_ifElse ihe ihyes ihno
  | const ok => exact Step.simulates_const ok

theorem Expr.simulates_steps (ctx : Context) {run : NodeId → Step} {grow : Growth} (id : Nat)
    (h : ∀ child, Step.Simulates child (run child) grow) (es : List Expr) :
    Step.SimulatesAll id (Expr.steps ctx run id es) (Expr.growths ctx grow es) :=
  simulatesAll_of_forall fun e _ => e.simulates_step ctx id h

namespace Context
open RunState (Shows)

variable {ctx : Context} {rule : String} {p : RawParse}

theorem simulates_attempt (ctx : Context) (left : Nat) (id : Nat) :
    Step.Simulates id (ctx.attempt left id) (ctx.grow left) := by
  induction left generalizing id with
  | zero =>
    refine ⟨local_attempt ctx 0 id, fun s b hs => ?_⟩
    rw [attempt_zero, grow_zero, hs.fault]
    rfl
  | succ left ih =>
    refine ⟨local_attempt ctx (left + 1) id, fun s b hs => ?_⟩
    have hname : b.label.name = (s.node id).name := by
      rw [hs.label]
      rfl
    have hnone : ¬ s.fault.isSome = true := by
      rw [hs.fault]
      simp
    rw [attempt_succ, grow_succ, hname, if_neg hnone]
    cases ctx.rules.rule? (s.node id).name with
    | none =>
      exact ⟨rfl, hs.congr (s.tree_noteUnresolved ctx id) (s.fault_noteUnresolved ctx id)⟩
    | some body =>
      have henter : (s.enter id (ctx.limit - left)).Shows id b := hs.congr rfl rfl
      have hout := (Expr.simulates_step ctx id ih body).outcome _ _ henter
      dsimp only
      generalize body.step ctx (ctx.attempt left) id (s.enter id (ctx.limit - left)) = out at hout ⊢
      obtain ⟨ok, s'⟩ := out
      cases hg : body.growth ctx (ctx.grow left) b with
      | none =>
        rw [hg] at hout
        exact hout
      | some grown =>
        obtain ⟨ok', b'⟩ := grown
        rw [hg] at hout
        obtain ⟨hok, hshows⟩ := hout
        cases hok
        have hmatched : (ok && s'.fault.isNone) = ok := by
          rw [hshows.fault]
          simp
        unfold RunState.leave
        dsimp only
        rw [hmatched]
        have hmark : (s'.modify id fun n => { n with matched := ok }).Shows id
            (.mk { b'.label with matched := ok } b'.branches) := by
          refine hshows.relabel rfl rfl ?_
          rw [hshows.label]
          rfl
        exact ⟨rfl, hmark.congr rfl rfl⟩

theorem shows_start (ctx : Context) (rule : String) :
    (RunState.start ctx rule).Shows Tree.root (Growth.seed ctx (.ref rule) 0) := by
  refine ⟨wellFormed_start ctx rule, Nat.one_pos, rfl, ?_⟩
  rw [(wellFormed_start ctx rule).sprout_eq]
  rfl

/-- The tree of a run is what the rule makes of a branch. -/
theorem grow_of_rawParse (h : ctx.rawParse rule = .ok p) :
    ∃ ok, ctx.grow ctx.limit (Growth.seed ctx (.ref rule) 0) =
      some (ok, p.tree.sprout Tree.root) := by
  obtain ⟨ok, s, hrun, hfault, htree⟩ := rawParse_eq_ok h
  have hout := (simulates_attempt ctx ctx.limit Tree.root).outcome _ _ (shows_start ctx rule)
  rw [hrun] at hout
  cases hg : ctx.grow ctx.limit (Growth.seed ctx (.ref rule) 0) with
  | none =>
    rw [hg] at hout
    have hsome : s.fault.isSome = true := hout
    rw [hfault] at hsome
    cases hsome
  | some grown =>
    obtain ⟨ok', b⟩ := grown
    rw [hg] at hout
    obtain ⟨-, hshows⟩ := hout
    refine ⟨ok', ?_⟩
    rw [htree, hshows.sprout]

end Context

end RankedGrammar
