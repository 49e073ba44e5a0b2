import RankedGrammar.Proofs.Walk.Reached

/-!
Looking ahead. A walk that stands somewhere in a post-order finds there what it would come to by moving
on; so what is read for a name is what is consumed for it, if the visitor leaves the walk where it is.
-/
namespace RankedGrammar

variable {σ : Type} {t : Tree} {w : Walk} {name : String} {id : NodeId}
  {ids seen : List NodeId} {out : Option NodeId}

/-- What a search for a name sees of some nodes, and what it finds. -/
inductive Tree.Search (t : Tree) (name : String) :
    List NodeId → List NodeId → Option NodeId → Prop
  | ended : Search t name [] [] none
  | found {id : NodeId} (ids : List NodeId) (h : (t.node id).name = name) :
      Search t name (id :: ids) [id] (some id)
  | next {id : NodeId} {ids seen : List NodeId} {out : Option NodeId}
      (h : (t.node id).name ≠ name) (rest : Search t name ids seen out) :
      Search t name (id :: ids) (id :: seen) out

namespace Tree.Search

theorem exists_seen (t : Tree) (name : String) (ids : List NodeId) :
    ∃ seen, t.Search name ids seen (ids.find? fun n => (t.node n).name = name) := by
  induction ids with
  | nil => exact ⟨[], .ended⟩
  | cons id ids ih =>
    by_cases hid : (t.node id).name = name
    · rw [List.find?_cons_of_pos (by simpa using hid)]
      exact ⟨[id], .found ids hid⟩
    · obtain ⟨seen, hsearch⟩ := ih
      rw [List.find?_cons_of_neg (by simpa using hid)]
      exact ⟨id :: seen, .next hid hsearch⟩

theorem of_some (h : t.Search name ids seen (some id)) :
    ∃ pre post, ids = pre ++ id :: post ∧ seen = pre ++ [id] ∧ (t.node id).name = name ∧
      ∀ n ∈ pre, (t.node n).name ≠ name := by
  generalize hout : some id = out at h
  induction h with
  | ended => cases hout
  | found ids hid =>
    cases hout
    exact ⟨[], ids, rfl, rfl, hid, by simp⟩
  | @next first ids seen out hfirst _ ih =>
    obtain ⟨pre, post, rfl, rfl, hid, hpre⟩ := ih hout
    exact ⟨first :: pre, post, rfl, rfl, hid, List.forall_mem_cons.2 ⟨hfirst, hpre⟩⟩

theorem of_none (h : t.Search name ids seen none) :
    seen = ids ∧ ∀ n ∈ ids, (t.node n).name ≠ name := by
  generalize hout : none = out at h
  induction h with
  | ended => simp
  | found ids hid => cases hout
  | next hfirst _ ih =>
    obtain ⟨rfl, hids⟩ := ih hout
    exact ⟨rfl, List.forall_mem_cons.2 ⟨hfirst, hids⟩⟩

theorem seen_isPrefix (h : t.Search name ids seen out) : seen <+: ids := by
  induction h with
  | ended => exact List.prefix_rfl
  | found ids _ => simp
  | next _ _ ih => simpa using ih

end Tree.Search

/-- The unbounded search for a name from a place on: what it gives if it ends. -/
inductive Walk.Reads (w : Walk) (name : String) : Option NodeId → Option NodeId → Prop
  | ended {cursor : Option NodeId} (h : w.nextAfter cursor = none) : Reads w name cursor none
  | found {cursor : Option NodeId} {id : NodeId} (h : w.nextAfter cursor = some id)
      (hid : (w.tree.node id).name = name) : Reads w name cursor (some id)
  | next {cursor out : Option NodeId} {id : NodeId} (h : w.nextAfter cursor = some id)
      (hid : (w.tree.node id).name ≠ name) (rest : Reads w name (some id) out) :
      Reads w name cursor out

/-- The unbounded loop that eats up to a name: what it gives if it ends, after so many turns. -/
inductive Eater.Consumes (eat : Eater σ) (name : String) :
    Nat → Walk → σ → Option NodeId × Walk × σ → Prop
  | ended {w w' : Walk} {data data' : σ} (h : eat w data = (none, w', data')) :
      Consumes eat name 1 w data (none, w', data')
  | found {w w' : Walk} {data data' : σ} {id : NodeId} (h : eat w data = (some id, w', data'))
      (hid : (w'.tree.node id).name = name) : Consumes eat name 1 w data (some id, w', data')
  | next {w w' : Walk} {data data' : σ} {id : NodeId} {turns : Nat}
      {out : Option NodeId × Walk × σ} (h : eat w data = (some id, w', data'))
      (hid : (w'.tree.node id).name ≠ name) (rest : Consumes eat name turns w' data' out) :
      Consumes eat name (turns + 1) w data out

/-- A loop that ends is carried out in full if it may have as many turns. -/
theorem Eater.Consumes.eq {eat : Eater σ} {turns fuel : Nat} {data : σ}
    {out : Option NodeId × Walk × σ} (h : eat.Consumes name turns w data out)
    (hfuel : turns ≤ fuel) : eat.consume name fuel w data = out := by
  induction h generalizing fuel with
  | ended heat =>
    obtain ⟨fuel, rfl⟩ := Nat.exists_eq_add_of_le' hfuel
    rw [Eater.consume, heat]
  | found heat hid =>
    obtain ⟨fuel, rfl⟩ := Nat.exists_eq_add_of_le' hfuel
    rw [Eater.consume, heat]
    simp only [hid, if_true]
  | next heat hid _ ih =>
    obtain ⟨fuel, rfl⟩ := Nat.exists_eq_add_of_le' (Nat.le_trans (Nat.le_add_left 1 _) hfuel)
    rw [Eater.consume, heat]
    simp only [hid, if_false]
    exact ih (by omega)

/-- The routine only looks at the walk, and at most works on a copy of it. -/
def Routine.Still : Routine σ → Prop
  | done _ => True
  | look next => ∀ w, (next w).Still
  | skip _ => False
  | eat _ _ => False
  | execute _ _ => False
  | consume _ _ _ => False
  | fork _ next => ∀ n data, (next n data).Still
  | restart _ => False
  | collapse _ => False

def Visitor.Still (v : Visitor σ) : Prop := ∀ id data w, (v id data w).Still

namespace Routine.Still

variable {r : Routine σ} {eat eat' : Eater σ} {fuel fuel' : Nat}

theorem walk_run (hr : r.Still) (eat : Eater σ) (fuel : Nat) (w : Walk) :
    (r.run eat fuel w).1 = w := by
  induction r with
  | done data => rfl
  | look next ih => exact ih w (hr w)
  | fork data next ih => exact ih _ _ (hr _ _)
  | skip next => cases hr
  | eat data next => cases hr
  | execute data next => cases hr
  | consume name data next => cases hr
  | restart next => cases hr
  | collapse next => cases hr

/-- What two eaters do on copies is all that matters. -/
theorem run_congr (hr : r.Still)
    (h : ∀ data, eat.execute fuel w data = eat'.execute fuel' w data) :
    r.run eat fuel w = r.run eat' fuel' w := by
  induction r with
  | done data => rfl
  | look next ih => exact ih w (hr w)
  | fork data next ih =>
    rw [Routine.run, Routine.run, h]
    exact ih _ _ (hr _ _)
  | skip next => cases hr
  | eat data next => cases hr
  | execute data next => cases hr
  | consume name data next => cases hr
  | restart next => cases hr
  | collapse next => cases hr

end Routine.Still

namespace Walk

variable {v : Visitor σ} {fuel fuel' levels levels' : Nat} {data : σ}

theorem name_handOut (w : Walk) (id : NodeId) (told : Bool) (n : NodeId) :
    ((w.handOut id told).tree.node n).name = (w.tree.node n).name := by
  have hmark : ((w.tree.modify id fun n => { n with consumed := true }).node n).name =
      (w.tree.node n).name := Tree.apply_node_modify Node.name rfl n
  unfold handOut
  dsimp only
  split
  · exact hmark
  · rw [Tree.apply_node_modify Node.name rfl n, hmark]

/-- Hands out a node and tells the visitor of it. -/
def tell (v : Visitor σ) (fuel levels : Nat) : Walk × σ → NodeId → Walk × σ
  | (w, data), id =>
    (v id data (w.handOut id true)).run (eatWithin v fuel levels) fuel (w.handOut id true)

/-- A visitor that leaves the walk where it is makes something of the data only. -/
theorem exists_tell_eq (hv : v.Still) (fuel levels : Nat) (w : Walk) (data : σ) (id : NodeId) :
    ∃ data', tell v fuel levels (w, data) id = (w.handOut id true, data') :=
  ⟨_, Prod.ext ((hv id data (w.handOut id true)).walk_run _ fuel _) rfl⟩

theorem foldl_tell_fst (hv : v.Still) (fuel levels : Nat) (w : Walk) (data : σ)
    (seen : List NodeId) : (seen.foldl (tell v fuel levels) (w, data)).1 =
      seen.foldl (fun w id => w.handOut id true) w := by
  induction seen generalizing w data with
  | nil => rfl
  | cons id seen ih =>
    obtain ⟨data', htell⟩ := exists_tell_eq hv fuel levels w data id
    rw [List.foldl_cons, List.foldl_cons, htell, ih]

theorem handed_foldl (w : Walk) (seen : List NodeId) :
    (seen.foldl (fun w id => w.handOut id true) w).handed = w.handed ++ seen := by
  induction seen generalizing w with
  | nil => simp
  | cons id seen ih => simp [ih, handed_handOut]

theorem toldOf_foldl (w : Walk) (seen : List NodeId) :
    (seen.foldl (fun w id => w.handOut id true) w).toldOf = w.toldOf ++ seen := by
  have hone : ∀ (w : Walk) (id : NodeId), (w.handOut id true).toldOf = w.toldOf ++ [id] := by
    simp [handOut, toldOf]
  induction seen generalizing w with
  | nil => simp
  | cons id seen ih => simp [ih, hone]

namespace Before

theorem eat_cons (h : w.Before (id :: ids)) (v : Visitor σ) (fuel levels : Nat) (data : σ) :
    eatWithin v fuel (levels + 1) w data = (some id, tell v fuel levels (w, data) id) := by
  rw [eatWithin, Walk.advance, h.peek]
  rfl

/-- To eat what is left is to be told of all of it. -/
theorem execute (hv : v.Still) (h : w.Before ids) (hfuel : ids.length < fuel) (fuel' levels : Nat)
    (data : σ) : (eatWithin v fuel' (levels + 1)).execute fuel w data =
      (ids.length, ids.foldl (Walk.tell v fuel' levels) (w, data)) := by
  induction ids generalizing fuel w data with
  | nil =>
    obtain ⟨fuel, rfl⟩ := Nat.exists_eq_add_of_lt hfuel
    rw [Eater.execute, eatWithin_of_ended h.peek]
    rfl
  | cons id ids ih =>
    obtain ⟨fuel, rfl⟩ := Nat.exists_eq_add_of_lt hfuel
    obtain ⟨data', htell⟩ := exists_tell_eq hv fuel' levels w data id
    have hlt : ids.length < (id :: ids).length + fuel := by
      rw [List.length_cons]
      omega
    rw [Eater.execute, h.eat_cons, List.foldl_cons, htell]
    dsimp only
    rw [ih (h.handOut true) hlt]
    rfl

/-- To eat up to a name is to be told of what a search sees. -/
theorem consumes (hv : v.Still) (h : w.Before ids) (hsearch : t.Search name ids seen out)
    (hnames : ∀ n, (w.tree.node n).name = (t.node n).name) (fuel levels : Nat) (data : σ) :
    ∃ turns ≤ ids.length + 1, (eatWithin v fuel (levels + 1)).Consumes name turns w data
      (out, seen.foldl (Walk.tell v fuel levels) (w, data)) := by
  have hnames' : ∀ id n, ((w.handOut id true).tree.node n).name = (t.node n).name := by
    intro id n
    rw [name_handOut, hnames]
  induction hsearch generalizing w data with
  | ended => exact ⟨1, by simp, .ended (eatWithin_of_ended h.peek fuel _ data)⟩
  | @found id ids hid =>
    obtain ⟨data', htell⟩ := exists_tell_eq hv fuel levels w data id
    have heat := h.eat_cons v fuel levels data
    rw [htell] at heat
    rw [List.foldl_cons, htell]
    exact ⟨1, by simp, .found heat ((hnames' id id).trans hid)⟩
  | @next id ids seen out hid _ ih =>
    obtain ⟨data', htell⟩ := exists_tell_eq hv fuel levels w data id
    have heat := h.eat_cons v fuel levels data
    rw [htell] at heat
    rw [List.foldl_cons, htell]
    obtain ⟨turns, hturns, hrest⟩ := ih (h.handOut true) (hnames' id) data' fun next n => by
      rw [name_handOut, hnames']
    refine ⟨turns + 1, Nat.succ_le_succ hturns, .next heat ?_ hrest⟩
    rwa [hnames']

/-- The bounds make no difference to a node that is told of, if they make none to those after it. -/
theorem tell_congr (hv : v.Still) (h : w.Before (id :: ids)) (hfuel : ids.length < fuel)
    (hfuel' : ids.length < fuel')
    (hrest : ∀ data, ids.foldl (Walk.tell v fuel levels) (w.handOut id true, data) =
      ids.foldl (Walk.tell v fuel' levels') (w.handOut id true, data)) (data : σ) :
    Walk.tell v fuel (levels + 1) (w, data) id = Walk.tell v fuel' (levels' + 1) (w, data) id := by
  have hnext := h.handOut true
  refine (hv id data (w.handOut id true)).run_congr fun data => ?_
  rw [hnext.execute hv hfuel, hnext.execute hv hfuel', hrest]

/-- The bounds make no difference to the first nodes of what is left. -/
theorem foldl_tell_congr (hv : v.Still) (h : w.Before ids) (hseen : seen <+: ids)
    (hfuel : ids.length ≤ fuel) (hfuel' : ids.length ≤ fuel') (hlevels : ids.length ≤ levels)
    (hlevels' : ids.length ≤ levels') (data : σ) :
    seen.foldl (Walk.tell v fuel levels) (w, data) =
      seen.foldl (Walk.tell v fuel' levels') (w, data) := by
  induction ids generalizing seen w data levels levels' with
  | nil => rw [List.prefix_nil.1 hseen, List.foldl_nil, List.foldl_nil]
  | cons id ids ih =>
    rw [List.length_cons] at hfuel hfuel' hlevels hlevels'
    obtain ⟨levels, rfl⟩ : ∃ l, levels = l + 1 := ⟨levels - 1, by omega⟩
    obtain ⟨levels', rfl⟩ : ∃ l, levels' = l + 1 := ⟨levels' - 1, by omega⟩
    have hnext := h.handOut true
    -- a visit may eat all that is left on a copy
    have hrest : ∀ data, ids.foldl (Walk.tell v fuel levels) (w.handOut id true, data) =
        ids.foldl (Walk.tell v fuel' levels') (w.handOut id true, data) :=
      ih hnext List.prefix_rfl (by omega) (by omega) (by omega) (by omega)
    cases seen with
    | nil => rw [List.foldl_nil, List.foldl_nil]
    | cons first seen =>
      obtain ⟨rfl, hrestSeen⟩ := List.cons_prefix_cons.1 hseen
      obtain ⟨data', htell⟩ := exists_tell_eq hv fuel (levels + 1) w data first
      rw [List.foldl_cons, List.foldl_cons, ← h.tell_congr hv hfuel hfuel' hrest data, htell]
      exact ih hnext hrestSeen (by omega) (by omega) (by omega) (by omega) data'

end Before

/-- A search from a place of the post-order sees the nodes after it, and ends. -/
theorem reads_of_split (ht : w.tree.WellFormed) {done : List NodeId}
    (hsplit : w.tree.postorder = done ++ ids) (hsearch : w.tree.Search name ids seen out) :
    w.Reads name done.getLast? out := by
  induction hsearch generalizing done with
  | ended => exact .ended (nextAfter_of_split ht hsplit)
  | found ids hid => exact .found (nextAfter_of_split ht hsplit) hid
  | @next id ids seen out hid _ ih =>
    have hrest : w.Reads name (done ++ [id]).getLast? out := ih (by simp [hsplit])
    rw [List.getLast?_concat] at hrest
    exact .next (nextAfter_of_split ht hsplit) hid hrest

theorem upcoming_of_split (ht : w.tree.WellFormed) {done : List NodeId} {fuel : Nat}
    (hsplit : w.tree.postorder = done ++ ids) (hfuel : ids.length ≤ fuel) :
    w.upcoming fuel done.getLast? = ids := by
  induction ids generalizing fuel done with
  | nil =>
    cases fuel with
    | zero => rfl
    | succ fuel =>
      rw [upcoming, nextAfter_of_split ht hsplit]
      rfl
  | cons id ids ih =>
    obtain ⟨fuel, rfl⟩ : ∃ f, fuel = f + 1 := ⟨fuel - 1, by rw [List.length_cons] at hfuel; omega⟩
    have hrest : w.upcoming fuel (done ++ [id]).getLast? = ids :=
      ih (by simp [hsplit]) (Nat.le_of_succ_le_succ hfuel)
    rw [List.getLast?_concat] at hrest
    rw [upcoming, nextAfter_of_split ht hsplit, List.head?_cons]
    dsimp only
    rw [hrest]

namespace Before

theorem read (h : w.Before ids) (name : String) :
    w.read name = ids.find? fun n => (w.tree.node n).name = name := by
  rw [Walk.read, current_eq, upcoming_of_split h.wellFormed h.split h.length_le]

end Before

/-- What the first `seen` of the nodes that are left have to do with the search for a name: it ends
at the last of them, or finds nothing and has seen all. -/
structure Foretells (w : Walk) (name : String) (ids seen : List NodeId) : Prop where
  reads : w.Reads name w.current (w.read name)
  found : ∀ id, w.read name = some id → ∃ pre post, ids = pre ++ id :: post ∧ seen = pre ++ [id] ∧
    (w.tree.node id).name = name ∧ ∀ n ∈ pre, (w.tree.node n).name ≠ name
  missed : w.read name = none → seen = ids ∧ ∀ n ∈ ids, (w.tree.node n).name ≠ name

/-- How a walk eats up to a name: it gives what was read, after the visitor has been told of the
nodes `seen`, of each in its turn and of no others. -/
structure Fulfils (w : Walk) (name : String) (ids seen : List NodeId) (v : Visitor σ)
    (fuel levels : Nat) (data : σ) : Prop where
  outcome : (eatWithin v fuel (levels + 1)).consume name fuel w data =
    (w.read name, seen.foldl (tell v fuel levels) (w, data))
  ends : ∃ turns ≤ ids.length + 1, (eatWithin v fuel (levels + 1)).Consumes name turns w data
    (w.read name, seen.foldl (tell v fuel levels) (w, data))
  walk : (seen.foldl (tell v fuel levels) (w, data)).1 =
    seen.foldl (fun w id => w.handOut id true) w
  handed : (seen.foldl (tell v fuel levels) (w, data)).1.handed = w.handed ++ seen
  told : (seen.foldl (tell v fuel levels) (w, data)).1.toldOf = w.toldOf ++ seen
  current : ∀ id, w.read name = some id →
    (seen.foldl (tell v fuel levels) (w, data)).1.current = some id
  bounds : ∀ fuel' levels', ids.length < fuel' → ids.length ≤ levels → ids.length ≤ levels' →
    (eatWithin v fuel' (levels' + 1)).consume name fuel' w data =
      (eatWithin v fuel (levels + 1)).consume name fuel w data

namespace Before

theorem foretells (h : w.Before ids) (hsearch : w.tree.Search name ids seen (w.read name)) :
    w.Foretells name ids seen where
  reads := by
    rw [current_eq]
    exact reads_of_split h.wellFormed h.split hsearch
  found := by
    intro id hid
    rw [hid] at hsearch
    exact hsearch.of_some
  missed := by
    intro hnone
    rw [hnone] at hsearch
    exact hsearch.of_none

theorem fulfils (hv : v.Still) (h : w.Before ids)
    (hsearch : w.tree.Search name ids seen (w.read name)) (hfuel : ids.length < fuel)
    (levels : Nat) (data : σ) : w.Fulfils name ids seen v fuel levels data := by
  have hconsume : ∀ fuel levels, ids.length < fuel →
      (eatWithin v fuel (levels + 1)).consume name fuel w data =
        (w.read name, seen.foldl (Walk.tell v fuel levels) (w, data)) := by
    intro fuel levels hfuel
    obtain ⟨turns, hturns, hconsumes⟩ := h.consumes hv hsearch (fun _ => rfl) fuel levels data
    exact hconsumes.eq (by omega)
  have hhanded : (seen.foldl (Walk.tell v fuel levels) (w, data)).1.handed = w.handed ++ seen := by
    rw [foldl_tell_fst hv, handed_foldl]
  refine ⟨hconsume fuel levels hfuel, h.consumes hv hsearch (fun _ => rfl) fuel levels data,
    foldl_tell_fst hv fuel levels w data seen, hhanded, ?_, ?_, ?_⟩
  · rw [foldl_tell_fst hv, toldOf_foldl]
  · intro id hid
    rw [hid] at hsearch
    obtain ⟨pre, post, -, rfl, -⟩ := hsearch.of_some
    rw [current_eq, hhanded, ← List.append_assoc, List.getLast?_concat]
  · intro fuel' levels' hfuel' hlevels hlevels'
    rw [hconsume fuel levels hfuel, hconsume fuel' levels' hfuel',
      h.foldl_tell_congr hv hsearch.seen_isPrefix (Nat.le_of_lt hfuel) (Nat.le_of_lt hfuel')
        hlevels hlevels']

end Before

end Walk

namespace Context

variable {ctx : Context} {rule : String} {collapse : Bool} {p : Parse}

/-- Looking ahead agrees with moving, wherever a walk over the tree of a parse stands: it peeks at
the node that it hands out next, and what it reads for a name is what a visitor that stays where it
is will have been told of last when the walk has eaten up to that name. Looking leaves the walk as
it is, and both loops end. -/
theorem lookahead_of_parse (h : ctx.parse rule collapse = .ok p) (hw : w.Reached p.tree) :
    ∃ ids, w.tree.postorder = w.handed ++ ids ∧ w.current = w.handed.getLast? ∧
      w.peek = ids.head? ∧ (∀ told, (w.advance told).1 = w.peek) ∧
      (∀ (v : Visitor σ) (fuel levels : Nat) (data : σ),
        (Walk.eatWithin v fuel (levels + 1) w data).1 = w.peek) ∧
      (∀ (r : Routine σ) (eat : Eater σ) (fuel : Nat), r.Still → (r.run eat fuel w).1 = w) ∧
      ∀ name, ∃ seen, w.Foretells name ids seen ∧
        ∀ (v : Visitor σ) (fuel levels : Nat) (data : σ), v.Still → ids.length < fuel →
          w.Fulfils name ids seen v fuel levels data := by
  obtain ⟨ids, hbefore⟩ := hw.before (sorted_of_parse h)
  refine ⟨ids, hbefore.split, w.current_eq, hbefore.peek, ?_, ?_, ?_, ?_⟩
  · intro told
    unfold Walk.advance
    split
    · next hnone => exact hnone.symm
    · next id hsome => exact hsome.symm
  · intro v fuel levels data
    cases ids with
    | nil =>
      rw [Walk.eatWithin_of_ended hbefore.peek, hbefore.peek]
      rfl
    | cons id ids =>
      rw [hbefore.eat_cons, hbefore.peek]
      rfl
  · exact fun r eat fuel hr => hr.walk_run eat fuel w
  · intro name
    obtain ⟨seen, hsearch⟩ := Tree.Search.exists_seen w.tree name ids
    rw [← hbefore.read] at hsearch
    exact ⟨seen, hbefore.foretells hsearch, fun v fuel levels data hv hfuel =>
      hbefore.fulfils hv hsearch hfuel levels data⟩

/-- Lists the nodes that it is told of, and looks at what comes next. -/
def listing : Visitor (List NodeId) := fun id ids _ => .look fun w => .done (w.peek.toList ++ id :: ids)

def twoLetters : Context where
  source := .ofString "ab"
  rules := .merge .empty .empty (.ofList [
    ("ROOT", .seq [.ref "A", .ref "B"]), ("A", .byte (.single 97)), ("B", .byte (.single 98))])

/-- From the first letter on, the walk eats up to the second, which it has found by looking ahead.
-/
theorem lookahead_of_parse_letters : ∃ p, twoLetters.parse "ROOT" = .ok p ∧
    let w := ((Walk.start p.tree "letters").advance false).2
    let bound := w.tree.size + 1
    let out := (Walk.eatWithin listing bound bound).consume "B" bound w []
    ∃ id, w.read "B" = some id ∧ (w.tree.node id).name = "B" ∧
      out.1 = some id ∧ out.2.1.current = some id ∧ out.2.1.toldOf.getLast? = some id := by
  have hrun : (twoLetters.parse "ROOT").toOption.map (fun p =>
      (((Walk.start p.tree "letters").advance false).2.read "B").isSome) = some true := by
    decide +kernel
  have hstill : listing.Still := fun _ _ _ _ => trivial
  cases hp : twoLetters.parse "ROOT" with
  | error e =>
    rw [hp] at hrun
    cases hrun
  | ok p =>
    rw [hp] at hrun
    obtain ⟨id, hid⟩ := Option.isSome_iff_exists.1 (Option.some.inj hrun)
    have hreached := (Walk.Reached.start (t := p.tree) "letters").advance false
    refine ⟨p, rfl, ?_⟩
    intro w bound out
    have hsorted := hreached.sorted (sorted_of_parse hp)
    obtain ⟨ids, hsplit, -, -, -, -, -, hnames⟩ :=
      lookahead_of_parse (σ := List NodeId) hp hreached
    have hlength : ids.length ≤ w.tree.size := by
      have hle := hsorted.wellFormed.length_postorder_le
      rw [hsplit, List.length_append] at hle
      exact Nat.le_trans (Nat.le_add_left _ _) hle
    obtain ⟨seen, hforetells, hfulfils⟩ := hnames "B"
    obtain ⟨pre, post, -, hseen, hname, -⟩ := hforetells.found id hid
    have hwalk := hfulfils listing bound w.tree.size [] hstill (Nat.lt_succ_of_le hlength)
    have hout : out = _ := hwalk.outcome
    rw [hout]
    refine ⟨id, hid, hname, hid, hwalk.current id hid, ?_⟩
    rw [hwalk.told, hseen, ← List.append_assoc, List.getLast?_concat]

end Context

end RankedGrammar
