import Mathlib.Order.Monotone.Basic
import RankedGrammar.Proofs.Match.Heedless
import RankedGrammar.Proofs.Match.Weight
import RankedGrammar.Proofs.Tree.Recursion

/-!
Which candidate an alternation adopts. Every candidate fares as if it were run alone, since the ones
before it leave behind nothing that it heeds. The earliest of the heaviest successes is adopted with
all that it has made, and of what the others have made nothing is in the tree.
-/
namespace RankedGrammar

theorem Node.plain_bare {n m : Node} (h : n.SameOrigin m) (hpoint : m.point = n.point) :
    m.bare.plain = n.bare.plain := by
  simp only [plain, bare, h.name, h.role, h.resolved, h.start, h.consumed, h.consumedChildren,
    hpoint]

namespace RunState

/-- Two runs that have gone well so far, with the same below the node and with the node itself the
same as far as rules heed it. -/
def Alike (id : Nat) (s s' : RunState) : Prop :=
  ∃ b b', s.Shows id b ∧ s'.Shows id b' ∧ b.Alike b'

variable {id : Nat} {s s' s'' : RunState}

theorem Shows.unique {b b' : Sprout} (h : s.Shows id b) (h' : s.Shows id b') : b = b' :=
  h.sprout.symm.trans h'.sprout

theorem Alike.trans (h : s.Alike id s') (h' : s'.Alike id s'') : s.Alike id s'' := by
  obtain ⟨b, b₁, hs, hs₁, hb⟩ := h
  obtain ⟨b₁', b₂, hs₁', hs₂, hb'⟩ := h'
  obtain rfl := hs₁.unique hs₁'
  exact ⟨b, b₂, hs, hs₂, hb.trans hb'⟩

theorem Alike.wellFormed (h : s.Alike id s') : s.tree.WellFormed ∧ id < s.tree.size := by
  obtain ⟨b, -, hs, -⟩ := h
  exact ⟨hs.wellFormed, hs.lt⟩

theorem Alike.fault (h : s.Alike id s') : s.fault = none := by
  obtain ⟨b, -, hs, -⟩ := h
  exact hs.fault

theorem Alike.cursor (h : s.Alike id s') : s.cursor id = s'.cursor id := by
  obtain ⟨b, b', hs, hs', hb⟩ := h
  rw [← hs.cursor, ← hs'.cursor, hb.cursor]

theorem Alike.map_children (h : s.Alike id s') :
    (s.node id).children.map s.tree.sprout = (s'.node id).children.map s'.tree.sprout := by
  obtain ⟨b, b', hs, hs', hb⟩ := h
  rw [← hs.branches, ← hs'.branches, hb.branches]

/-- Work on a node that ends with the children and the cursor that it began with. -/
theorem Extends.alike (h : s.Extends id s') (hs : s.tree.WellFormed) (hid : id < s.tree.size)
    (hfault : s'.fault = none) (hchildren : (s'.node id).children = (s.node id).children)
    (hcursor : s'.cursor id = s.cursor id) : s'.Alike id s := by
  refine ⟨_, _, ⟨h.wellFormed, Nat.lt_of_lt_of_le hid h.size_le, hfault, rfl⟩,
    ⟨hs, hid, h.fault_eq_none hfault, rfl⟩, ?_, ?_⟩
  · rw [h.wellFormed.sprout_eq, hs.sprout_eq]
    exact Node.plain_bare h.origin hcursor
  · rw [h.wellFormed.sprout_eq, hs.sprout_eq]
    show (s'.node id).children.map s'.tree.sprout = (s.node id).children.map s.tree.sprout
    rw [hchildren]
    refine List.map_congr_left fun c hc => ?_
    exact h.sprout_eq hs (hs.lt_of_mem hc) (hs.lt_size hc)

/-- Work that leaves the node with the children that it had brings nothing new in reach. -/
theorem Extends.lt_of_reaches (h : s.Extends id s') (hs : s.tree.WellFormed)
    (hchildren : (s'.node id).children = (s.node id).children) {a n : Nat} (ha : a < s.tree.size)
    (hreach : s'.tree.Reaches a n) : n < s.tree.size := by
  induction hreach with
  | refl => exact ha
  | @tail p m _ hchild hp =>
    have hkept : (s'.node p).children = (s.node p).children := by
      by_cases hid : p = id
      · rw [hid, hchildren]
      · rw [h.node_eq p hp hid]
    have hmem : m ∈ (s'.node p).children := hchild
    rw [hkept] at hmem
    exact hs.lt_size hmem

end RunState

namespace Step

variable {id : Nat} {r : Step} {rs : List Step} {g : Growth} {gs : List Growth} {s t : RunState}

theorem Simulates.alike (h : Simulates id r g) (hg : g.Heedless) (ht : t.Alike id s)
    (hfault : (r s).2.fault = none) : (r t).1 = (r s).1 ∧ (r t).2.Alike id (r s).2 := by
  obtain ⟨b, b', hb, hb', halike⟩ := ht
  obtain ⟨ok, c', hrun', hok', hshows'⟩ := h.exists_of_fault hb' hfault
  obtain ⟨c, hrun, hc⟩ := hg b' b halike.symm _ _ hrun'
  have hout := h.outcome t b hb
  rw [hrun] at hout
  obtain ⟨hok, hshows⟩ := hout
  exact ⟨hok.trans hok'.symm, c, c', hshows, hshows', hc.symm⟩

section Ranking

variable {κ : Type} {weight : κ → Nat} {number : Nat} {ts : List (Trial κ)} {best : Ranked κ}

theorem heaviest_eq_none_iff :
    heaviest (ranked weight number ts) = none ↔ ∀ t ∈ ts, t.matched = false := by
  constructor
  · intro hnone t ht
    by_contra hmatched
    obtain ⟨x, hx, -⟩ : ∃ x ∈ ranked weight number ts, x.trial = t :=
      exists_ranked ht (by simpa using hmatched)
    have hsome := heaviest_isSome hx
    rw [hnone] at hsome
    cases hsome
  · intro hfailed
    cases hbest : heaviest (ranked weight number ts) with
    | none => rfl
    | some best =>
      obtain ⟨hmem, hmatched⟩ := mem_of_ranked (mem_of_heaviest hbest)
      exact absurd hmatched (by rw [hfailed _ hmem]; exact Bool.false_ne_true)

/-- The trial at place `i` is at least as heavy as every success and heavier than those before. -/
structure Leads (weight : κ → Nat) (ts : List (Trial κ)) (i : Nat) (best : Ranked κ) : Prop where
  trial : ts[i]? = some best.trial
  le : ∀ (j : Nat) (t : Trial κ), ts[j]? = some t → t.matched = true →
    totalWeight weight t.children ≤ best.weight ∧
      (j < i → totalWeight weight t.children < best.weight)

theorem leads_first {t : Trial κ} (hfirst : best.trial = t)
    (hweight : best.weight = totalWeight weight t.children)
    (h : ∀ t' ∈ ts, t'.matched = true → totalWeight weight t'.children ≤ best.weight) :
    Leads weight (t :: ts) 0 best where
  trial := congrArg some hfirst.symm
  le := by
    intro j t' ht' hwon
    refine ⟨?_, fun hlt => absurd hlt (Nat.not_lt_zero j)⟩
    cases j with
    | zero =>
      cases ht'
      exact Nat.le_of_eq hweight.symm
    | succ j => exact h t' (List.mem_of_getElem? ht') hwon

theorem Leads.later {i : Nat} (h : Leads weight ts i best) {t : Trial κ}
    (ht : t.matched = true → totalWeight weight t.children < best.weight) :
    Leads weight (t :: ts) (i + 1) best where
  trial := h.trial
  le := by
    intro j t' ht' hwon
    cases j with
    | zero =>
      cases ht'
      exact ⟨Nat.le_of_lt (ht hwon), fun _ => ht hwon⟩
    | succ j =>
      obtain ⟨hle, hlt⟩ := h.le j t' ht' hwon
      exact ⟨hle, fun hji => hlt (Nat.lt_of_succ_lt_succ hji)⟩

theorem exists_leads (h : heaviest (ranked weight number ts) = some best) :
    ∃ i, Leads weight ts i best := by
  induction ts generalizing number best with
  | nil => cases h
  | cons t ts ih =>
    rw [ranked] at h
    split at h
    · rw [heaviest] at h
      cases hrest : heaviest (ranked weight (number + 1) ts) with
      | none =>
        rw [hrest] at h
        cases h
        have hfailed := heaviest_eq_none_iff.1 hrest
        refine ⟨0, leads_first rfl rfl fun t' ht' hwon => ?_⟩
        exact absurd ((hfailed t' ht').symm.trans hwon) Bool.false_ne_true
      | some other =>
        obtain ⟨i, hleads⟩ := ih hrest
        rw [hrest] at h
        dsimp only at h
        split at h
        · next hlt =>
          cases h
          exact ⟨i + 1, hleads.later fun _ => hlt⟩
        · next hle =>
          cases h
          refine ⟨0, leads_first rfl rfl fun t' ht' hwon => ?_⟩
          obtain ⟨j, hj⟩ := List.mem_iff_getElem?.1 ht'
          exact Nat.le_trans (hleads.le j t' hj hwon).1 (Nat.le_of_not_lt hle)
    · next hfailed =>
      obtain ⟨i, hleads⟩ := ih h
      exact ⟨i + 1, hleads.later fun hwon => absurd hwon hfailed⟩

end Ranking

/-- The trial went as the candidate goes when it is run alone from `s`. -/
structure Trial.FaresAs (id : NodeId) (base : Nat) (s s' : RunState) (r : Step)
    (t : Trial NodeId) : Prop where
  matched : t.matched = (r s).1
  point : t.point = (r s).2.cursor id
  children : t.children.map s'.tree.sprout =
    ((r s).2.childrenFrom id base).map (r s).2.tree.sprout

/-- Every candidate fares as it does alone, since the candidates before it leave an alike state. -/
theorem trials_alone (h : SimulatesAll id rs gs) (hheedless : ∀ g ∈ gs, g.Heedless)
    (halone : ∀ r ∈ rs, (r s).2.fault = none)
    (ht : (t.moveTo id (s.cursor id)).Alike id s) {base : Nat}
    (hbase : base = (t.node id).children.length) :
    ((trials id (s.cursor id) base rs t).2.moveTo id (s.cursor id)).Alike id s ∧
      List.Forall₂ (Trial.FaresAs id base s (trials id (s.cursor id) base rs t).2) rs
        (trials id (s.cursor id) base rs t).1 := by
  induction h generalizing t with
  | nil => exact ⟨ht, .nil⟩
  | @cons r g rs gs hr hrest ih =>
    obtain ⟨hg, hgs⟩ := List.forall_mem_cons.1 hheedless
    obtain ⟨hfault, hfaults⟩ := List.forall_mem_cons.1 halone
    obtain ⟨hok, halike⟩ := hr.alike hg ht hfault
    obtain ⟨hwf, hid⟩ := ht.wellFormed
    have hmoved : ((t.moveTo id (s.cursor id)).node id).children = (t.node id).children :=
      Tree.apply_node_modify Node.children rfl id
    have hbase' : base = ((t.moveTo id (s.cursor id)).node id).children.length :=
      hbase.trans (congrArg List.length hmoved.symm)
    have htried := hr.local_step _ hwf hid
    rw [trials_cons]
    generalize r (t.moveTo id (s.cursor id)) = out at hok halike htried ⊢
    obtain ⟨ok, tried⟩ := out
    dsimp only at hok halike htried ⊢
    have hkeep := htried.keepChildren hwf hid hbase'
    have hcut := htried.children_keepChildren hid hbase'
    have hid' := Nat.lt_of_lt_of_le hid hkeep.size_le
    have hback := hkeep.moveTo hid (s.cursor id)
    have hlocal := SimulatesAll.local_step hrest
    obtain ⟨hext, -, -⟩ := trials_spec hlocal (s.cursor id) hkeep.wellFormed hid' rfl
    rw [hcut, ← hbase'] at hext
    -- cut back and with its cursor put back, the node is alike the one before the candidate
    have hnext : ((tried.keepChildren id base).moveTo id (s.cursor id)).Alike id s := by
      refine (hback.alike hwf hid halike.fault ?_ ?_).trans ht
      · exact (Tree.apply_node_modify Node.children rfl id).trans hcut
      · exact (RunState.cursor_moveTo_self _ _ hid').trans ht.cursor.symm
    obtain ⟨hend, htrials⟩ := ih hgs hfaults hnext (by rw [hcut, ← hbase'])
    refine ⟨hend, .cons ⟨hok, halike.cursor, ?_⟩ htrials⟩
    obtain ⟨hwf', -⟩ := halike.wellFormed
    dsimp only
    rw [map_sprout_childrenFrom hwf' hkeep.wellFormed hext, RunState.childrenFrom, List.map_drop,
      halike.map_children, ← List.map_drop]
    rfl

theorem trials_append (id : NodeId) (point base : Nat) (rs rs' : List Step) (s : RunState) :
    trials id point base (rs ++ rs') s =
      let first := trials id point base rs s
      (first.1 ++ (trials id point base rs' first.2).1, (trials id point base rs' first.2).2) := by
  induction rs generalizing s with
  | nil => rfl
  | cons r rs ih =>
    rw [List.cons_append, trials_cons, trials_cons]
    dsimp only
    rw [ih]
    rfl

theorem length_trials (id : NodeId) (point base : Nat) (rs : List Step) (s : RunState) :
    (trials id point base rs s).1.length = rs.length := by
  induction rs generalizing s with
  | nil => rfl
  | cons r rs ih =>
    rw [trials_cons]
    exact congrArg (· + 1) (ih _)

def contest (id : NodeId) (rs : List Step) (s : RunState) : List (Trial NodeId) :=
  (trials id (s.cursor id) (s.node id).children.length rs s.noteAlternation).1

/-- The state of an alternation after its first `k` candidates. -/
def tried (id : NodeId) (rs : List Step) (s : RunState) (k : Nat) : RunState :=
  (trials id (s.cursor id) (s.node id).children.length (rs.take k) s.noteAlternation).2

theorem tried_spec (h : ∀ r ∈ rs, Local id r) (hs : s.tree.WellFormed) (hid : id < s.tree.size)
    (k : Nat) : s.Extends id (tried id rs s k) ∧
      ((tried id rs s k).node id).children = (s.node id).children := by
  have hnoted : s.Extends id s.noteAlternation := (RunState.Extends.refl hs).congr rfl rfl
  obtain ⟨hext, hsame, -⟩ := trials_spec (fun r hr => h r (List.mem_of_mem_take hr)) (s.cursor id)
    hnoted.wellFormed hid rfl
  exact ⟨hnoted.trans hid hext, hsame⟩

theorem tried_length (id : NodeId) (rs : List Step) (s : RunState) :
    tried id rs s rs.length =
      (trials id (s.cursor id) (s.node id).children.length rs s.noteAlternation).2 := by
  rw [tried, List.take_length]

theorem alternation_eq (id : NodeId) (rs : List Step) (s : RunState) :
    alternation id rs s =
      settle id (s.cursor id) (contest id rs s, tried id rs s rs.length) := by
  rw [tried_length]
  rfl

theorem tried_succ (id : NodeId) (s : RunState) {i : Nat} (hi : i < rs.length) :
    tried id rs s (i + 1) =
      (trials id (s.cursor id) (s.node id).children.length [rs[i]] (tried id rs s i)).2 := by
  rw [tried, List.take_succ_eq_append_getElem hi, trials_append]
  rfl

/-- The trial of a candidate is its run after the ones before it. -/
theorem getElem?_contest (id : NodeId) (s : RunState) {i : Nat} (hi : i < rs.length) :
    (contest id rs s)[i]? =
      (trials id (s.cursor id) (s.node id).children.length [rs[i]] (tried id rs s i)).1[0]? := by
  have hlast : (rs.take i ++ [rs[i]]) ++ rs.drop (i + 1) = rs := by
    rw [← List.take_succ_eq_append_getElem hi, List.take_append_drop]
  have hbefore : (trials id (s.cursor id) (s.node id).children.length (rs.take i)
      s.noteAlternation).1.length = i := by
    rw [length_trials, List.length_take_of_le (Nat.le_of_lt hi)]
  conv_lhs => rw [contest, ← hlast, trials_append, trials_append]
  dsimp only
  rw [List.append_assoc, List.getElem?_append_right (Nat.le_of_eq hbefore), hbefore, Nat.sub_self,
    List.getElem?_append_left (by rw [length_trials]; exact Nat.one_pos)]
  rfl

theorem tried_of_le (id : NodeId) (s : RunState) {k : Nat} (hk : rs.length ≤ k) :
    tried id rs s k = tried id rs s rs.length := by
  rw [tried, tried, List.take_of_length_le hk, List.take_length]

theorem turn_spec (h : ∀ r ∈ rs, Local id r) (hs : s.tree.WellFormed) (hid : id < s.tree.size)
    {i : Nat} (hi : i < rs.length) :
    (tried id rs s i).Extends id (tried id rs s (i + 1)) ∧ ∀ t, (contest id rs s)[i]? = some t →
      t.Fits id (tried id rs s i) (tried id rs s (i + 1)) := by
  obtain ⟨hext, hsame⟩ := tried_spec h hs hid i
  have hlocal : ∀ r ∈ [rs[i]], Local id r :=
    List.forall_mem_singleton.2 (h _ (List.getElem_mem hi))
  obtain ⟨hturn, -, hfits⟩ := trials_spec hlocal (s.cursor id) hext.wellFormed
    (Nat.lt_of_lt_of_le hid hext.size_le) (congrArg List.length hsame.symm)
  rw [getElem?_contest id s hi, tried_succ id s hi]
  exact ⟨hturn, fun t ht => hfits t (List.mem_of_getElem? ht)⟩

theorem tried_size_le (h : ∀ r ∈ rs, Local id r) (hs : s.tree.WellFormed) (hid : id < s.tree.size)
    {k k' : Nat} (hle : k ≤ k') :
    (tried id rs s k).tree.size ≤ (tried id rs s k').tree.size := by
  refine monotone_nat_of_le_succ (f := fun k => (tried id rs s k).tree.size) (fun k => ?_) hle
  by_cases hk : k < rs.length
  · exact (turn_spec h hs hid hk).1.size_le
  · have hk := Nat.not_lt.1 hk
    rw [tried_of_le id s hk, tried_of_le id s (Nat.le_succ_of_le hk)]

/-- The turns of two candidates have no node in common. -/
theorem turns_disjoint (h : ∀ r ∈ rs, Local id r) (hs : s.tree.WellFormed) (hid : id < s.tree.size)
    {i j c : Nat} (hne : j ≠ i) (hge : (tried id rs s i).tree.size ≤ c)
    (hlt : c < (tried id rs s (i + 1)).tree.size) :
    ¬ ((tried id rs s j).tree.size ≤ c ∧ c < (tried id rs s (j + 1)).tree.size) := by
  intro hboth
  rcases Nat.lt_or_gt_of_ne hne with hji | hij
  · have hle : (tried id rs s (j + 1)).tree.size ≤ (tried id rs s i).tree.size :=
      tried_size_le h hs hid hji
    omega
  · have hle : (tried id rs s (i + 1)).tree.size ≤ (tried id rs s j).tree.size :=
      tried_size_le h hs hid hij
    omega

theorem tried_extends (h : ∀ r ∈ rs, Local id r) (hs : s.tree.WellFormed) (hid : id < s.tree.size)
    (k : Nat) : (tried id rs s k).Extends id (tried id rs s rs.length) := by
  obtain ⟨hext, hsame⟩ := tried_spec h hs hid k
  obtain ⟨hrest, -, -⟩ := trials_spec (fun r hr => h r (List.mem_of_mem_drop hr)) (s.cursor id)
    hext.wellFormed (Nat.lt_of_lt_of_le hid hext.size_le) (congrArg List.length hsame.symm)
  have hall : tried id rs s rs.length = (trials id (s.cursor id) (s.node id).children.length
      (rs.drop k) (tried id rs s k)).2 := by
    conv_lhs => rw [tried_length, ← List.take_append_drop k rs, trials_append]
    rfl
  exact hall ▸ hrest

theorem getElem?_of_forall₂ {α β : Type} {R : α → β → Prop} {xs : List α} {ys : List β}
    (h : List.Forall₂ R xs ys) (i : Nat) :
    (∀ x, xs[i]? = some x → ∃ y, ys[i]? = some y ∧ R x y) ∧
      ∀ y, ys[i]? = some y → ∃ x, xs[i]? = some x ∧ R x y := by
  induction h generalizing i with
  | nil => simp
  | @cons x y xs ys hxy _ ih =>
    cases i with
    | zero => simpa using hxy
    | succ i => exact ih i

section Settle

variable {point : Nat} {ts : List (Trial NodeId)} {best : Ranked NodeId}

theorem node_settle_of_ne {j : NodeId} (hne : id ≠ j) :
    (settle id point (ts, s)).2.node j = s.node j := by
  have hmoved : (s.moveTo id point).node j = s.node j := RunState.node_modify_of_ne s _ hne
  simp only [settle]
  split
  · exact hmoved
  split
  · refine (RunState.node_modify_of_ne _ _ hne).trans ?_
    exact (RunState.node_modify_of_ne _ _ hne).trans hmoved
  · exact (RunState.node_modify_of_ne _ _ hne).trans hmoved

theorem fault_settle (id : NodeId) (point : Nat) (ts : List (Trial NodeId)) (s : RunState) :
    (settle id point (ts, s)).2.fault = s.fault := by
  simp only [settle]
  split
  · rfl
  split
  · rfl
  · rfl

theorem settle_won (hid : id < s.tree.size) (hfault : s.fault = none)
    (hbest : heaviest (ranked (s.moveTo id point).tree.weight 1 ts) = some best) :
    (settle id point (ts, s)).1 = true ∧
      ((settle id point (ts, s)).2.node id).children =
        (s.node id).children ++ best.trial.children ∧
      (settle id point (ts, s)).2.cursor id = best.trial.point := by
  have hmoved : (s.moveTo id point).node id = { s.node id with point } :=
    RunState.node_modify_self s _ hid
  have hid' : id < (s.moveTo id point).tree.size := (RunState.size_modify s id _).symm ▸ hid
  rw [settle_some point hfault hbest]
  refine ⟨rfl, ?_, ?_⟩
  · refine (Tree.apply_node_modify Node.children rfl id).trans ?_
    show (((s.moveTo id point).addChildren id best.trial.children).node id).children = _
    rw [RunState.addChildren, RunState.node_modify_self _ _ hid', hmoved]
  · refine RunState.cursor_moveTo_self _ _ ?_
    show id < ((s.moveTo id point).addChildren id best.trial.children).tree.size
    rw [RunState.addChildren, RunState.size_modify]
    exact hid'

theorem settle_lost (hid : id < s.tree.size) (hfault : s.fault = none)
    (hbest : heaviest (ranked (s.moveTo id point).tree.weight 1 ts) = none) :
    (settle id point (ts, s)).1 = false ∧
      ((settle id point (ts, s)).2.node id).children = (s.node id).children ∧
      (settle id point (ts, s)).2.cursor id = point := by
  have hmoved : (s.moveTo id point).node id = { s.node id with point } :=
    RunState.node_modify_self s _ hid
  rw [settle_none point hfault hbest]
  refine ⟨rfl, ?_, ?_⟩
  · refine (Tree.apply_node_modify Node.children rfl id).trans ?_
    rw [← RunState.node, hmoved]
  · refine (Tree.apply_node_modify Node.point rfl id).trans ?_
    rw [← RunState.node, hmoved]

end Settle

def weightAlone (id : NodeId) (base : Nat) (s : RunState) (r : Step) : Nat :=
  totalWeight (r s).2.tree.weight ((r s).2.childrenFrom id base)

/-- What a trial has made is the same in tables that differ in the node itself only. -/
theorem Trial.Fits.map_sprout {s' s'' : RunState} {t : Trial NodeId} (h : t.Fits id s s')
    (hid : id < s.tree.size) (hs' : s'.tree.WellFormed) (hs'' : s''.tree.WellFormed)
    (hsame : ∀ j, id ≠ j → s''.node j = s'.node j) :
    t.children.map s''.tree.sprout = t.children.map s'.tree.sprout := by
  refine List.map_congr_left fun c hc => ?_
  obtain ⟨hge, hlt, -⟩ := h.new c hc
  exact hs'.sprout_congr hs'' (fun j hj _ => hsame j (Nat.ne_of_lt hj))
    (Nat.lt_of_lt_of_le hid hge) hlt

theorem totalWeight_eq (hs : s.tree.WellFormed) (ids : List NodeId) :
    totalWeight s.tree.weight ids = totalWeight Sprout.weight (ids.map s.tree.sprout) := by
  rw [totalWeight_map, hs.weight_eq]

/-- Where the node has no new children but from the turn of one candidate, all that is new and in
reach is from there. -/
theorem reaches_turn (h : ∀ r ∈ rs, Local id r) (hs : s.tree.WellFormed) (hid : id < s.tree.size)
    {s' : RunState} (hext : s.Extends id s')
    (hsame : ∀ j, id ≠ j → s'.node j = (tried id rs s rs.length).node j) {i : Nat}
    (hchildren : ∀ c ∈ (s'.node id).children, s.tree.size ≤ c →
      (tried id rs s i).tree.size ≤ c ∧ c < (tried id rs s (i + 1)).tree.size)
    {a n : Nat} (ha : a < s.tree.size) (hreach : s'.tree.Reaches a n) (hn : s.tree.size ≤ n) :
    (tried id rs s i).tree.size ≤ n ∧ n < (tried id rs s (i + 1)).tree.size := by
  induction hreach with
  | refl => exact absurd ha (Nat.not_lt.2 hn)
  | @tail p m _ hchild ih =>
    by_cases hp : p = id
    · exact hchildren m (hp ▸ hchild) hn
    by_cases hold : p < s.tree.size
    · have hmem : m ∈ (s.tree.node p).children := by
        rw [← RunState.node, ← hext.node_eq p hold hp]
        exact hchild
      exact absurd (hs.lt_size hmem) (Nat.not_lt.2 hn)
    · obtain ⟨hge, hlt⟩ := ih (Nat.not_lt.1 hold)
      have hpm : p < m := hext.wellFormed.lt_of_mem hchild
      refine ⟨Nat.le_trans hge (Nat.le_of_lt hpm), ?_⟩
      -- a later turn does not add to what this one has made
      by_contra hlater
      have hparent : ((tried id rs s rs.length).tree.node m).parent = some p := by
        rw [← RunState.node, ← hsame m (Nat.ne_of_lt (Nat.lt_of_lt_of_le hid hn))]
        exact hext.wellFormed.parent_eq hchild
      obtain ⟨q, hq, hbelow⟩ := (tried_extends h hs hid (i + 1)).parent_new m (Nat.not_lt.1 hlater)
        (Tree.lt_size_of_parent hparent)
      obtain rfl : p = q := Option.some.inj (hparent.symm.trans hq)
      exact hbelow.elim hp (Nat.not_le_of_lt hlt)

theorem faresAs_of_contest (h : SimulatesAll id rs gs) (hheedless : ∀ g ∈ gs, g.Heedless)
    (hs : s.tree.WellFormed) (hid : id < s.tree.size) (hfault : s.fault = none)
    (halone : ∀ r ∈ rs, (r s).2.fault = none) :
    (tried id rs s rs.length).fault = none ∧
      List.Forall₂ (Trial.FaresAs id (s.node id).children.length s (tried id rs s rs.length)) rs
        (contest id rs s) := by
  have hwork : s.Extends id s.noteAlternation := (RunState.Extends.refl hs).congr rfl rfl
  have hnoted : (s.noteAlternation.moveTo id (s.cursor id)).Alike id s :=
    (hwork.moveTo hid _).alike hs hid hfault (Tree.apply_node_modify Node.children rfl id)
      (RunState.cursor_moveTo_self _ _ hid)
  obtain ⟨hend, htrials⟩ := trials_alone h hheedless halone hnoted
    (rfl : (s.node id).children.length = _)
  rw [← tried_length] at hend htrials
  exact ⟨hend.fault, htrials⟩

theorem contest_spec (h : ∀ r ∈ rs, Local id r) (hs : s.tree.WellFormed) (hid : id < s.tree.size) :
    ∀ t ∈ contest id rs s, t.Fits id s (tried id rs s rs.length) := by
  obtain ⟨-, -, hfits⟩ := trials_spec h (s.cursor id) (s := s.noteAlternation) hs hid rfl
  rw [tried_length]
  exact fun t ht => ⟨(hfits t ht).nodup, (hfits t ht).new⟩

/-- The weight of a trial, told where the choice is made, is that of the candidate alone. -/
theorem weight_contest (h : ∀ r ∈ rs, Local id r) (hs : s.tree.WellFormed) (hid : id < s.tree.size)
    {base point : Nat}
    (hfares : List.Forall₂ (Trial.FaresAs id base s (tried id rs s rs.length)) rs (contest id rs s))
    (j : Nat) (r : Step) (t : Trial NodeId) (hr : rs[j]? = some r)
    (ht : (contest id rs s)[j]? = some t) :
    totalWeight ((tried id rs s rs.length).moveTo id point).tree.weight t.children =
      weightAlone id base s r := by
  obtain ⟨t', ht', hfare⟩ := (getElem?_of_forall₂ hfares j).1 r hr
  obtain rfl : t' = t := Option.some.inj (ht'.symm.trans ht)
  have hwf := (tried_spec h hs hid rs.length).1.wellFormed
  have hmoved : ((tried id rs s rs.length).moveTo id point).tree.WellFormed := hwf.modify rfl rfl
  have hfits := contest_spec h hs hid t' (List.mem_of_getElem? ht)
  have hown := h r (List.mem_of_getElem? hr) s hs hid
  rw [totalWeight_eq hmoved, hfits.map_sprout hid hwf hmoved fun _ hne =>
    RunState.node_modify_of_ne _ _ hne, hfare.children, ← totalWeight_eq hown.wellFormed]
  rfl

/-- Candidate `i` succeeds alone, is at least as heavy as every candidate that does and heavier than
those before it. -/
structure Wins (id base : Nat) (s : RunState) (rs : List Step) (i : Nat) (r : Step) : Prop where
  candidate : rs[i]? = some r
  matched : (r s).1 = true
  le : ∀ (j : Nat) (r' : Step), rs[j]? = some r' → (r' s).1 = true →
    weightAlone id base s r' ≤ weightAlone id base s r ∧
      (j < i → weightAlone id base s r' < weightAlone id base s r)

theorem wins_of_leads {base : Nat} {s' : RunState} {weight : NodeId → Nat}
    {ts : List (Trial NodeId)} {best : Ranked NodeId} {i : Nat}
    (hfares : List.Forall₂ (Trial.FaresAs id base s s') rs ts)
    (hweight : ∀ (j : Nat) (r : Step) (t : Trial NodeId), rs[j]? = some r → ts[j]? = some t →
      totalWeight weight t.children = weightAlone id base s r)
    (hbest : best.weight = totalWeight weight best.trial.children)
    (hmatched : best.trial.matched = true) (h : Leads weight ts i best) :
    ∃ r, Wins id base s rs i r ∧ best.trial.FaresAs id base s s' r := by
  obtain ⟨r, hr, hfare⟩ := (getElem?_of_forall₂ hfares i).2 _ h.trial
  refine ⟨r, ⟨hr, hfare.matched.symm.trans hmatched, fun j r' hr' hwon => ?_⟩, hfare⟩
  obtain ⟨t, ht, hfare'⟩ := (getElem?_of_forall₂ hfares j).1 r' hr'
  have hle := h.le j t ht (hfare'.matched.trans hwon)
  rw [hbest, hweight i r _ hr h.trial, hweight j r' t hr' ht] at hle
  exact hle

/-- The state is `s` with what candidate `i` makes when it is run alone, and nothing of what the
others have made is in reach. -/
structure Adopts (id : NodeId) (s s' : RunState) (rs : List Step) (i : Nat) (r : Step) : Prop where
  children : ∃ alone new : List NodeId,
    ((r s).2.node id).children = (s.node id).children ++ alone ∧
      (s'.node id).children = (s.node id).children ++ new ∧
      new.map s'.tree.sprout = alone.map (r s).2.tree.sprout
  cursor : s'.cursor id = (r s).2.cursor id
  reaches : ∀ a n : Nat, a < s.tree.size → s'.tree.Reaches a n → s.tree.size ≤ n →
    (tried id rs s i).tree.size ≤ n ∧ n < (tried id rs s (i + 1)).tree.size
  not_reaches : ∀ j a n : Nat, j ≠ i → a < s.tree.size → (tried id rs s j).tree.size ≤ n →
    n < (tried id rs s (j + 1)).tree.size → ¬ s'.tree.Reaches a n

/-- The node has the children and the cursor that it had, and nothing new is in reach. -/
structure Restores (id : NodeId) (s s' : RunState) : Prop where
  children : (s'.node id).children = (s.node id).children
  cursor : s'.cursor id = s.cursor id
  reaches : ∀ a n : Nat, a < s.tree.size → s'.tree.Reaches a n → n < s.tree.size

section Outcome

variable (h : SimulatesAll id rs gs) (hheedless : ∀ g ∈ gs, g.Heedless) (hs : s.tree.WellFormed)
  (hid : id < s.tree.size) (hfault : s.fault = none) (halone : ∀ r ∈ rs, (r s).2.fault = none)
include h hheedless hs hid hfault halone

theorem alternation_lost
    (hbest : heaviest (ranked ((tried id rs s rs.length).moveTo id (s.cursor id)).tree.weight 1
      (contest id rs s)) = none) :
    (alternation id rs s).1 = false ∧ (∀ r ∈ rs, (r s).1 = false) ∧
      Restores id s (alternation id rs s).2 := by
  have hlocal := h.local_step
  obtain ⟨hext, hsame⟩ := tried_spec hlocal hs hid rs.length
  obtain ⟨hfault', hfares⟩ := faresAs_of_contest h hheedless hs hid hfault halone
  have hafter := local_alternation hlocal s hs hid
  obtain ⟨hlost, hchildren, hcursor⟩ :=
    settle_lost (Nat.lt_of_lt_of_le hid hext.size_le) hfault' hbest
  rw [← alternation_eq] at hlost hchildren hcursor
  rw [hsame] at hchildren
  refine ⟨hlost, fun r hr => ?_, hchildren, hcursor, fun a n ha hreach => ?_⟩
  · obtain ⟨j, hj⟩ := List.mem_iff_getElem?.1 hr
    obtain ⟨t, ht, hfare⟩ := (getElem?_of_forall₂ hfares j).1 r hj
    exact hfare.matched.symm.trans (heaviest_eq_none_iff.1 hbest t (List.mem_of_getElem? ht))
  · exact hafter.lt_of_reaches hs hchildren ha hreach

theorem alternation_won {best : Ranked NodeId}
    (hbest : heaviest (ranked ((tried id rs s rs.length).moveTo id (s.cursor id)).tree.weight 1
      (contest id rs s)) = some best) :
    (alternation id rs s).1 = true ∧ ∃ i r, Wins id (s.node id).children.length s rs i r ∧
      Adopts id s (alternation id rs s).2 rs i r := by
  have hlocal := h.local_step
  obtain ⟨hext, hsame⟩ := tried_spec hlocal hs hid rs.length
  obtain ⟨hfault', hfares⟩ := faresAs_of_contest h hheedless hs hid hfault halone
  have hfits := contest_spec hlocal hs hid
  have hafter := local_alternation hlocal s hs hid
  obtain ⟨hwon, hchildren, hcursor⟩ :=
    settle_won (Nat.lt_of_lt_of_le hid hext.size_le) hfault' hbest
  have hnodes : ∀ j, id ≠ j →
      (alternation id rs s).2.node j = (tried id rs s rs.length).node j := fun j hne => by
    rw [alternation_eq, node_settle_of_ne hne]
  rw [← alternation_eq] at hwon hchildren hcursor
  rw [hsame] at hchildren
  have hmem := mem_of_heaviest hbest
  obtain ⟨htrial, hmatched⟩ := mem_of_ranked hmem
  obtain ⟨i, hleads⟩ := exists_leads hbest
  obtain ⟨r, hwins, hfare⟩ := wins_of_leads hfares
    (weight_contest hlocal hs hid hfares) (weight_of_ranked hmem) hmatched hleads
  have hi : i < rs.length := (List.getElem?_eq_some_iff.1 hwins.candidate).1
  have hown := hlocal r (List.mem_of_getElem? hwins.candidate) s hs hid
  have hsprouts : best.trial.children.map (alternation id rs s).2.tree.sprout =
      ((r s).2.childrenFrom id (s.node id).children.length).map (r s).2.tree.sprout := by
    rw [(hfits _ htrial).map_sprout hid hext.wellFormed hafter.wellFormed hnodes, hfare.children]
  have hturn : ∀ c ∈ ((alternation id rs s).2.node id).children, s.tree.size ≤ c →
      (tried id rs s i).tree.size ≤ c ∧ c < (tried id rs s (i + 1)).tree.size := by
    intro c hc hnew
    rw [hchildren] at hc
    cases List.mem_append.1 hc with
    | inl hold => exact absurd (hs.lt_size hold) (Nat.not_lt.2 hnew)
    | inr hadded =>
      obtain ⟨hge, hlt, -⟩ := ((turn_spec hlocal hs hid hi).2 _ hleads.trial).new c hadded
      exact ⟨hge, hlt⟩
  have hreaches : ∀ a n : Nat, a < s.tree.size → (alternation id rs s).2.tree.Reaches a n →
      s.tree.size ≤ n → (tried id rs s i).tree.size ≤ n ∧ n < (tried id rs s (i + 1)).tree.size :=
    fun a n ha hreach => reaches_turn hlocal hs hid hafter hnodes hturn ha hreach
  refine ⟨hwon, i, r, hwins, ⟨_, _, (hown.childrenFrom rfl).1, hchildren, hsprouts⟩,
    hcursor.trans hfare.point, hreaches, fun j a n hne ha hlo hhi hreach => ?_⟩
  have hbefore := (tried_spec hlocal hs hid j).1.size_le
  obtain ⟨hge, hlt⟩ := hreaches a n ha hreach (Nat.le_trans hbefore hlo)
  exact turns_disjoint hlocal hs hid hne hge hlt ⟨hlo, hhi⟩

end Outcome

end Step

namespace Context

/-- An alternation adopts exactly the earliest of the heaviest successes. If no candidate faults
when it is run alone, then the alternation does not either, and it succeeds exactly if one of them
does. The one that wins is adopted with the children and the cursor that it has when it is run
alone; of what the others make nothing is in reach. If there is none, children and cursor are as
before. A node weighs one, or nothing if it is blank, and what its children weigh. -/
theorem alternation_adopts (ctx : Context) (left id : Nat) (s : RunState) (es : List Expr)
    (hs : s.tree.WellFormed) (hid : id < s.tree.size) (hfault : s.fault = none)
    (halone : ∀ e ∈ es, (e.step ctx (ctx.attempt left) id s).2.fault = none) :
    let rs := es.map fun e => e.step ctx (ctx.attempt left) id
    let out := (Expr.alt es).step ctx (ctx.attempt left) id s
    out.2.fault = none ∧
    (out.1 = true ↔ ∃ e ∈ es, (e.step ctx (ctx.attempt left) id s).1 = true) ∧
    (out.1 = true → ∃ i r, Step.Wins id (s.node id).children.length s rs i r ∧
      Step.Adopts id s out.2 rs i r) ∧
    (out.1 = false → Step.Restores id s out.2) ∧
    ∀ r ∈ rs, ∀ n : NodeId, (r s).2.tree.weight n =
      (if ((r s).2.node n).name = blankName then 0 else 1) +
        Step.totalWeight (r s).2.tree.weight ((r s).2.node n).children := by
  intro rs out
  have hsteps : Expr.steps ctx (ctx.attempt left) id es = rs := Expr.steps_eq ctx _ id es
  have hsimulates : Step.SimulatesAll id rs (Expr.growths ctx (ctx.grow left) es) :=
    hsteps ▸ Expr.simulates_steps ctx id (fun child => simulates_attempt ctx left child) es
  have hheedless := Expr.heedless_growths ctx (ctx.grow left) es
  have hrs : ∀ r ∈ rs, (r s).2.fault = none := List.forall_mem_map.2 halone
  have hout : out = Step.alternation id rs s :=
    congrArg (Step.alternation id · s) hsteps
  have hnofault : out.2.fault = none := by
    rw [hout, Step.alternation_eq, Step.fault_settle]
    exact (Step.faresAs_of_contest hsimulates hheedless hs hid hfault hrs).1
  have hweight : ∀ r ∈ rs, ∀ n : NodeId, (r s).2.tree.weight n =
      (if ((r s).2.node n).name = blankName then 0 else 1) +
        Step.totalWeight (r s).2.tree.weight ((r s).2.node n).children := fun r hr n =>
    (hsimulates.local_step r hr s hs hid).wellFormed.weight_node n
  refine ⟨hnofault, ?_⟩
  rw [hout]
  cases hbest : Step.heaviest (Step.ranked
      ((Step.tried id rs s rs.length).moveTo id (s.cursor id)).tree.weight 1
      (Step.contest id rs s)) with
  | none =>
    obtain ⟨hlost, hnone, hrestores⟩ :=
      Step.alternation_lost hsimulates hheedless hs hid hfault hrs hbest
    refine ⟨⟨fun hwon => ?_, ?_⟩, fun hwon => ?_, fun _ => hrestores, hweight⟩
    · exact absurd (hlost.symm.trans hwon) Bool.false_ne_true
    · rintro ⟨e, he, hok⟩
      exact absurd ((hnone _ (List.mem_map_of_mem he)).symm.trans hok) Bool.false_ne_true
    · exact absurd (hlost.symm.trans hwon) Bool.false_ne_true
  | some best =>
    obtain ⟨hwon, i, r, hwins, hadopts⟩ :=
      Step.alternation_won hsimulates hheedless hs hid hfault hrs hbest
    refine ⟨⟨fun _ => ?_, fun _ => hwon⟩, fun _ => ⟨i, r, hwins, hadopts⟩, fun hlost => ?_, hweight⟩
    · obtain ⟨e, he, rfl⟩ := List.mem_map.1 (List.mem_of_getElem? hwins.candidate)
      exact ⟨e, he, hwins.matched⟩
    · exact absurd (hlost.symm.trans hwon) Bool.false_ne_true

/-- Two successes without weight, two of weight one, and a failure that has made more. -/
def contenders : List Expr :=
  [.byte (.single 97), .ref blankName, .ref "A", .ref "B", .all [.ref "A", .ref "B"]]

/-- Rules for one letter, one of them blank, and a rule that tries them after a first letter. -/
def contention : Context where
  source := .ofString "aab"
  rules := .merge .empty .empty (.ofList [
    ("ROOT", .seq [.ref "A", .alt contenders]), ("A", .byte (.single 97)),
    ("B", .byte (.single 97)), (blankName, .byte (.single 97))])

/-- After a first child, the third candidate wins there: it comes before the fourth, and the fifth,
which has made more, fails. -/
theorem alternation_adopts_contenders :
    let step := fun e : Expr => e.step contention (contention.attempt 255) Tree.root
    let s := (step (.ref "A") (.start contention "ROOT")).2
    let rs := contenders.map step
    let weight := Step.weightAlone Tree.root (s.node Tree.root).children.length s
    (s.node Tree.root).children = [1] ∧
      rs.map (fun r => ((r s).1, weight r)) =
        [(true, 0), (true, 0), (true, 1), (true, 1), (false, 2)] ∧
      ∃ r, Step.Wins Tree.root (s.node Tree.root).children.length s rs 2 r ∧
        Step.Adopts Tree.root s (step (.alt contenders) s).2 rs 2 r := by
  intro step s rs weight
  have hlocal := Expr.local_step contention Tree.root (local_attempt contention 255) (.ref "A") _
    (wellFormed_start contention "ROOT") (by decide)
  have halone : rs.map (fun r => ((r s).1, weight r)) =
      [(true, 0), (true, 0), (true, 1), (true, 1), (false, 2)] := by decide +kernel
  obtain ⟨-, -, hadopts, -⟩ := alternation_adopts contention 255 Tree.root s contenders
    hlocal.wellFormed (by decide +kernel) (by decide +kernel) (by decide +kernel)
  obtain ⟨i, r, hwins, hadopts⟩ := hadopts (by decide +kernel)
  have hwinner : [(true, 0), (true, 0), (true, 1), (true, 1), (false, 2)][i]? =
      some (true, weight r) := by
    rw [← halone, List.getElem?_map, hwins.candidate, Option.map_some, hwins.matched]
  have hthird : weight (step (.ref "A")) = 1 := by decide +kernel
  have hleast : weight (step (.ref "A")) ≤ weight r ∧
      (2 < i → weight (step (.ref "A")) < weight r) :=
    hwins.le 2 (step (.ref "A")) rfl (by decide +kernel)
  rw [hthird] at hleast
  have hi : i = 2 := by
    generalize weight r = w at hleast hwinner
    rcases i with _ | _ | _ | _ | _ | i
    all_goals simp at hwinner
    all_goals omega
  subst hi
  exact ⟨by decide +kernel, halone, r, hwins, hadopts⟩

end Context

end RankedGrammar
