import RankedGrammar.Match.Combinator
import RankedGrammar.Proofs.Diagnostic.Semilattice
import RankedGrammar.Proofs.Tree.Above

/-!
What is asked of the nodes of a tree, by recursion. Every question is answered from one depth-first
listing; the answer for a node is made of what the node holds and of the answers for its children,
in order. The loop that makes the listing is also stated without a bound, as a relation that holds
only of loops that end.
-/
namespace RankedGrammar

section Fold

variable {α β ι : Type} {P : β → Prop} {op : β → β → β} {unit : β} {f : α → β}
  (hunit : P unit) (hop : ∀ {a b}, P a → P b → P (op a b)) (hleft : ∀ a, op unit a = a)
  (hright : ∀ a, op a unit = a)
  (hassoc : ∀ {a b c}, P a → P b → P c → op (op a b) c = op a (op b c)) (hf : ∀ x, P (f x))

include hop hf

theorem foldl_mem {a : β} (ha : P a) (xs : List α) : P (xs.foldl (fun b x => op b (f x)) a) := by
  induction xs generalizing a with
  | nil => exact ha
  | cons x xs ih => exact ih (hop ha (hf x))

include hunit hleft hright hassoc

/-- What is combined after `a` may be combined by itself first. -/
theorem foldl_op {a : β} (ha : P a) (xs : List α) :
    xs.foldl (fun b x => op b (f x)) a = op a (xs.foldl (fun b x => op b (f x)) unit) := by
  induction xs generalizing a with
  | nil => exact (hright a).symm
  | cons x xs ih =>
    have hrest := foldl_mem hop hf hunit xs
    rw [List.foldl_cons, List.foldl_cons, hleft, ih (hop ha (hf x)), ih (hf x),
      hassoc ha (hf x) hrest]

/-- A list of lists may be combined list by list. -/
theorem foldl_flatMap_op {a : β} (ha : P a) (is : List ι) (g : ι → List α) :
    (is.flatMap g).foldl (fun b x => op b (f x)) a =
      is.foldl (fun b i => op b ((g i).foldl (fun b x => op b (f x)) unit)) a := by
  induction is generalizing a with
  | nil => rfl
  | cons i is ih =>
    have hfirst := foldl_mem hop hf hunit (g i)
    rw [List.flatMap_cons, List.foldl_append, foldl_op hunit hop hleft hright hassoc hf ha,
      List.foldl_cons, ih (hop ha hfirst)]

end Fold

theorem join_flatMap {α : Type} (xs : List α) (f : α → List String) :
    String.join (xs.flatMap f) = String.join (xs.map fun x => String.join (f x)) := by
  induction xs with
  | nil => rfl
  | cons x xs ih => rw [List.flatMap_cons, List.map_cons, String.join_append, String.join_cons, ih]

namespace Tree

/-- The loop over a stack ends with the given nodes listed. -/
inductive Lists (t : Tree) : List NodeId → List NodeId → Prop where
  | done : Lists t [] []
  | visit {id : NodeId} {ids listed : List NodeId}
      (rest : Lists t ((t.node id).children ++ ids) listed) : Lists t (id :: ids) (id :: listed)

/-- The answers for a node are made of what it holds and of the answers for its children. -/
structure ByRecursion (t : Tree) (id : NodeId) : Prop where
  /-- The loop behind every answer ends. -/
  lists : t.Lists [id] (t.descendants id)
  descendants : t.descendants id = id :: (t.node id).children.flatMap t.descendants
  isValid : t.isValid id = ((t.node id).matched && (t.node id).children.all t.isValid)
  value : t.value id =
    (t.node id).literal.getD "" ++ String.join ((t.node id).children.map t.value)
  stop : t.stop id =
    (t.node id).children.foldl (fun furthest c => max furthest (t.stop c)) (t.node id).point
  weight : t.weight id =
    (if (t.node id).name = blankName then 0 else 1) +
      Step.totalWeight t.weight (t.node id).children
  /-- The names at each place are in the same order as well. -/
  expected : t.expected id =
    (t.node id).children.foldl (fun e c => e.merge (t.expected c)) (t.node id).expected
  findBelow? : ∀ name, t.findBelow? id name = (t.node id).children.findSome? fun c =>
    if (t.node c).name = name then some c else t.findBelow? c name
  /-- What is found below is the first of the name in the listing. -/
  first_below : ∀ name d, t.findBelow? id name = some d ↔ (t.node d).name = name ∧
    ∃ before after, t.descendants id = id :: (before ++ d :: after) ∧
      ∀ e ∈ before, (t.node e).name ≠ name
  none_below : ∀ name, t.findBelow? id name = none ↔
    ∀ d ∈ t.descendants id, d ≠ id → (t.node d).name ≠ name
  /-- The way up behind the search above ends. -/
  climbs : t.Climbs id (t.ancestors id)
  findAbove? : ∀ name, t.findAbove? id name = (t.node id).parent.bind fun p =>
    if (t.node p).name = name then some p else t.findAbove? p name
  /-- What is found above lies below all others of the name above. -/
  nearest_above : ∀ name a, t.findAbove? id name = some a ↔
    t.Above name id a ∧ ∀ b, t.Above name id b → a ∈ t.descendants b
  none_above : ∀ name, t.findAbove? id name = none ↔ ∀ a, ¬ t.Above name id a

theorem totalWeight_eq_countP (t : Tree) (ids : List NodeId) : Step.totalWeight t.weight ids =
    (ids.flatMap t.descendants).countP fun n => (t.node n).name ≠ blankName := by
  induction ids with
  | nil => rfl
  | cons id ids ih => rw [Step.totalWeight, ih, List.flatMap_cons, List.countP_append, weight]

namespace WellFormed

variable {t : Tree} {id : NodeId} {name : String}

theorem descendants_node (h : t.WellFormed) (id : NodeId) :
    t.descendants id = id :: (t.node id).children.flatMap t.descendants := by
  rw [h.descendants_eq, h.preorder_branch]
  congr 1
  exact List.flatMap_congr fun c _ => (h.descendants_eq c).symm

/-- The loop lists the nodes below the first of its stack and then goes on with the others. -/
theorem lists_cons (h : t.WellFormed) (id : NodeId) {ids listed : List NodeId}
    (hrest : t.Lists ids listed) : t.Lists (id :: ids) (t.descendants id ++ listed) := by
  induction id using h.induct generalizing ids listed with
  | step id ih =>
    have hchildren : ∀ cs ⊆ (t.node id).children,
        t.Lists (cs ++ ids) (cs.flatMap t.descendants ++ listed) := by
      intro cs hcs
      induction cs with
      | nil => exact hrest
      | cons c cs ihcs =>
        obtain ⟨hc, hcs⟩ := List.cons_subset.1 hcs
        rw [List.flatMap_cons, List.append_assoc]
        exact ih c hc (ihcs hcs)
    rw [h.descendants_node]
    exact .visit (hchildren _ (List.Subset.refl _))

theorem lists_descendants (h : t.WellFormed) (id : NodeId) :
    t.Lists [id] (t.descendants id) := by
  have hlists := h.lists_cons id .done
  rwa [List.append_nil] at hlists

theorem isValid_node (h : t.WellFormed) (id : NodeId) :
    t.isValid id = ((t.node id).matched && (t.node id).children.all t.isValid) := by
  rw [isValid, h.descendants_node, List.all_cons, List.all_flatMap]
  rfl

theorem value_eq_join (h : t.WellFormed) (id : NodeId) :
    t.value id =
      (t.node id).literal.getD "" ++ String.join ((t.node id).children.map t.value) := by
  rw [value, h.descendants_node, List.filterMap_cons, List.filterMap_flatMap]
  have hbelow : String.join ((t.node id).children.flatMap fun c =>
      (t.descendants c).filterMap fun n => (t.node n).literal) =
        String.join ((t.node id).children.map t.value) := join_flatMap _ _
  cases (t.node id).literal with
  | none =>
    rw [hbelow, Option.getD_none, String.empty_append]
  | some text =>
    rw [String.join_cons, hbelow, Option.getD_some]

theorem stop_node (h : t.WellFormed) (id : NodeId) :
    t.stop id =
      (t.node id).children.foldl (fun furthest c => max furthest (t.stop c)) (t.node id).point := by
  rw [stop, h.descendants_node, List.foldl_cons, Nat.zero_max]
  exact foldl_flatMap_op (P := fun _ => True) trivial (fun _ _ => trivial) Nat.zero_max Nat.max_zero
    (fun _ _ _ => Nat.max_assoc _ _ _) (fun _ => trivial) trivial _ _

theorem weight_node (h : t.WellFormed) (id : NodeId) :
    t.weight id =
      (if (t.node id).name = blankName then 0 else 1) +
        Step.totalWeight t.weight (t.node id).children := by
  rw [weight, h.descendants_node, List.countP_cons, totalWeight_eq_countP, Nat.add_comm]
  congr 1
  by_cases hname : (t.node id).name = blankName
  · simp [hname]
  · simp [hname]

/-- Where the nodes keep their entries in order, a node expects what it expects itself and then
what its children expect. -/
theorem expected_node (h : t.WellFormed) (hordered : ∀ j, (t.node j).expected.Ordered)
    (id : NodeId) :
    t.expected id =
      (t.node id).children.foldl (fun e c => e.merge (t.expected c)) (t.node id).expected := by
  rw [expected, h.descendants_node, List.foldl_cons, Expectations.empty_merge]
  exact foldl_flatMap_op (P := Expectations.Ordered) Expectations.ordered_empty
    Expectations.Ordered.merge Expectations.empty_merge Expectations.merge_empty
    Expectations.Ordered.merge_merge hordered (hordered id) _ _

theorem findBelow?_node (h : t.WellFormed) (id : NodeId) (name : String) :
    t.findBelow? id name = (t.node id).children.findSome? fun c =>
      if (t.node c).name = name then some c else t.findBelow? c name := by
  rw [findBelow?, h.descendants_node, List.tail_cons, List.find?_flatMap]
  congr 1
  funext c
  rw [findBelow?, h.descendants_node c, List.tail_cons, List.find?_cons]
  by_cases hname : (t.node c).name = name
  · simp [hname]
  · simp [hname]

theorem findBelow?_eq_some_iff (h : t.WellFormed) {d : NodeId} :
    t.findBelow? id name = some d ↔ (t.node d).name = name ∧
      ∃ before after, t.descendants id = id :: (before ++ d :: after) ∧
        ∀ e ∈ before, (t.node e).name ≠ name := by
  rw [findBelow?, h.descendants_node, List.tail_cons, List.find?_eq_some_iff_append]
  simp

/-- The node itself stands at the head of its listing only. -/
theorem findBelow?_eq_none_iff (h : t.WellFormed) :
    t.findBelow? id name = none ↔ ∀ d ∈ t.descendants id, d ≠ id → (t.node d).name ≠ name := by
  have hnodup := h.nodup_preorder_branch id
  rw [← h.descendants_eq, h.descendants_node, List.nodup_cons] at hnodup
  rw [findBelow?, h.descendants_node, List.tail_cons, List.find?_eq_none]
  constructor
  · intro hnone d hd hne
    simpa using hnone d ((List.mem_cons.1 hd).resolve_left hne)
  · intro hnone d hd
    have hne : d ≠ id := fun heq => hnodup.1 (heq ▸ hd)
    simpa using hnone d (List.mem_cons_of_mem id hd) hne

/-- The answers for the nodes of a tree are those that the recursion gives. -/
theorem byRecursion (h : t.WellFormed) (hordered : ∀ j, (t.node j).expected.Ordered)
    (hid : t.Reaches root id) : t.ByRecursion id where
  lists := h.lists_descendants id
  descendants := h.descendants_node id
  isValid := h.isValid_node id
  value := h.value_eq_join id
  stop := h.stop_node id
  weight := h.weight_node id
  expected := h.expected_node hordered id
  findBelow? := h.findBelow?_node id
  first_below _ _ := h.findBelow?_eq_some_iff
  none_below _ := h.findBelow?_eq_none_iff
  climbs := h.climbs_ancestors hid
  findAbove? := h.findAbove?_eq hid
  nearest_above _ _ := h.findAbove?_eq_some_iff hid
  none_above _ := h.findAbove?_eq_none_iff hid

end WellFormed

end Tree

end RankedGrammar
