import RankedGrammar.Match.Parse
import RankedGrammar.Proofs.Match.Body
import RankedGrammar.Proofs.Tree.WellFormed

/-!
What the steps of a rule leave alone. A step on a node changes no other node that was there before,
keeps the children that the node had, and adds nodes below it only; after a fault it keeps the fault.
So the table stays well formed throughout a run.
-/
namespace RankedGrammar

/-- The same attempt at the same place: all that is fixed when a node is made, and that no walk has
reached it. -/
structure Node.SameOrigin (n m : Node) : Prop where
  name : m.name = n.name
  parent : m.parent = n.parent
  role : m.role = n.role
  resolved : m.resolved = n.resolved
  start : m.start = n.start
  consumed : m.consumed = n.consumed
  consumedChildren : m.consumedChildren = n.consumedChildren

theorem Node.SameOrigin.refl (n : Node) : n.SameOrigin n := ⟨rfl, rfl, rfl, rfl, rfl, rfl, rfl⟩

theorem Node.SameOrigin.trans {n m k : Node} (h : n.SameOrigin m) (h' : m.SameOrigin k) :
    n.SameOrigin k where
  name := h'.name.trans h.name
  parent := h'.parent.trans h.parent
  role := h'.role.trans h.role
  resolved := h'.resolved.trans h.resolved
  start := h'.start.trans h.start
  consumed := h'.consumed.trans h.consumed
  consumedChildren := h'.consumedChildren.trans h.consumedChildren

def Tree.Unwalked (t : Tree) : Prop :=
  ∀ j, (t.node j).consumed = false ∧ (t.node j).consumedChildren = 0

namespace Tree

variable {t : Tree}

/-- The links stay sound when a node gives up children or takes some that name it already. -/
theorem WellFormed.setChildren (h : t.WellFormed) {id : Nat} {cs : List NodeId} {f : Node → Node}
    (hid : id < t.size) (hparent : (f (t.node id)).parent = (t.node id).parent)
    (hchildren : (f (t.node id)).children = cs) (hnodup : cs.Nodup)
    (hcs : ∀ c ∈ cs, id < c ∧ c < t.size ∧ (t.node c).parent = some id) :
    (t.modify id f).WellFormed := by
  have hpar := apply_node_modify Node.parent hparent
  have hmem : ∀ {p c}, c ∈ ((t.modify id f).node p).children →
      p < c ∧ c < t.size ∧ (t.node c).parent = some p := by
    intro p c hc
    by_cases hp : id = p
    · subst hp
      rw [node_modify_self t f hid, hchildren] at hc
      exact hcs c hc
    · rw [node_modify_of_ne t f hp] at hc
      exact ⟨h.lt_of_mem hc, h.lt_size hc, h.parent_eq hc⟩
  constructor
  · rw [size_modify]; exact h.size_pos
  · rw [hpar root]; exact h.root_parent
  · intro p c hc; exact (hmem hc).1
  · intro p c hc; rw [size_modify]; exact (hmem hc).2.1
  · intro p c hc; rw [hpar c]; exact (hmem hc).2.2
  · intro p
    by_cases hp : id = p
    · subst hp
      rw [node_modify_self t f hid, hchildren]
      exact hnodup
    · rw [node_modify_of_ne t f hp]
      exact h.nodup p

theorem WellFormed.sublistChildren (h : t.WellFormed) {id : Nat} {f : Node → Node}
    (hid : id < t.size) (hparent : (f (t.node id)).parent = (t.node id).parent)
    (hchildren : (f (t.node id)).children.Sublist (t.node id).children) :
    (t.modify id f).WellFormed := by
  refine h.setChildren hid hparent rfl ((h.nodup id).sublist hchildren) fun c hc => ?_
  have hmem := hchildren.subset hc
  exact ⟨h.lt_of_mem hmem, h.lt_size hmem, h.parent_eq hmem⟩

/-- A node without children, which no node names as a child, keeps the links sound. -/
theorem WellFormed.push (h : t.WellFormed) {n : Node} (hn : n.children = []) :
    (t.push n).WellFormed := by
  have hsize := t.size_push n
  have hpos := h.size_pos
  have hnode : ∀ j < t.size, (t.push n).node j = t.node j := fun j hj => t.node_push_of_lt n hj
  have hmem : ∀ {p c : Nat}, c ∈ ((t.push n).node p).children → c ∈ (t.node p).children := by
    intro p c hc
    rcases Nat.lt_trichotomy p t.size with hp | hp | hp
    · rwa [hnode p hp] at hc
    · subst hp
      rw [node_push_size, hn] at hc
      cases hc
    · rw [children_of_size_le (by omega)] at hc
      cases hc
  constructor
  · omega
  · rw [hnode root hpos]; exact h.root_parent
  · intro p c hc; exact h.lt_of_mem (hmem hc)
  · intro p c hc
    have hlt := h.lt_size (hmem hc)
    omega
  · intro p c hc
    rw [hnode c (h.lt_size (hmem hc))]
    exact h.parent_eq (hmem hc)
  · intro p
    rcases Nat.lt_trichotomy p t.size with hp | hp | hp
    · rw [hnode p hp]; exact h.nodup p
    · subst hp
      rw [node_push_size, hn]
      exact List.nodup_nil
    · rw [children_of_size_le (by omega)]
      exact List.nodup_nil

theorem Unwalked.modify (h : t.Unwalked) {id : Nat} {f : Node → Node} (hid : id < t.size)
    (hf : (t.node id).SameOrigin (f (t.node id))) : (t.modify id f).Unwalked := by
  intro j
  by_cases hj : id = j
  · subst hj
    rw [node_modify_self t f hid, hf.consumed, hf.consumedChildren]
    exact h id
  · rw [node_modify_of_ne t f hj]
    exact h j

end Tree

namespace RunState

/-- `s'` comes from `s` by work on the node `id`. -/
structure Extends (id : Nat) (s s' : RunState) : Prop where
  wellFormed : s'.tree.WellFormed
  size_le : s.tree.size ≤ s'.tree.size
  /-- No other node changes. -/
  node_eq : ∀ j, j < s.tree.size → j ≠ id → s'.node j = s.node j
  origin : (s.node id).SameOrigin (s'.node id)
  /-- The node keeps its children and gets new ones after them. -/
  children : ∃ new, (s'.node id).children = (s.node id).children ++ new ∧
    ∀ c ∈ new, s.tree.size ≤ c
  /-- What is new lies below the node. -/
  parent_new : ∀ j, s.tree.size ≤ j → j < s'.tree.size →
    ∃ q : Nat, (s'.node j).parent = some q ∧ (q = id ∨ s.tree.size ≤ q)
  unwalked : s.tree.Unwalked → s'.tree.Unwalked
  fault : s.fault.isSome → s'.fault = s.fault

namespace Extends

variable {id : Nat} {s s' s'' : RunState}

theorem refl (h : s.tree.WellFormed) : s.Extends id s where
  wellFormed := h
  size_le := Nat.le_refl _
  node_eq := fun _ _ _ => rfl
  origin := .refl _
  children := ⟨[], by simp⟩
  parent_new := fun j hj hj' => absurd hj' (Nat.not_lt.2 hj)
  unwalked := fun h => h
  fault := fun _ => rfl

/-- The children past those that the node had are the new ones. -/
theorem childrenFrom (h : s.Extends id s') {base : Nat}
    (hbase : base = (s.node id).children.length) :
    (s'.node id).children = (s.node id).children ++ s'.childrenFrom id base ∧
      ∀ c ∈ s'.childrenFrom id base, s.tree.size ≤ c := by
  obtain ⟨new, hnew, hge⟩ := h.children
  have hdrop : s'.childrenFrom id base = new := by
    rw [RunState.childrenFrom, hnew, hbase, List.drop_left]
  rw [hdrop]
  exact ⟨hnew, hge⟩

theorem fault_eq_none (h : s.Extends id s') (hnone : s'.fault = none) : s.fault = none := by
  by_contra hsome
  have hkept := h.fault (Option.isSome_iff_ne_none.2 hsome)
  rw [hnone] at hkept
  exact hsome hkept.symm

theorem trans (hid : id < s.tree.size) (h : s.Extends id s') (h' : s'.Extends id s'') :
    s.Extends id s'' where
  wellFormed := h'.wellFormed
  size_le := Nat.le_trans h.size_le h'.size_le
  node_eq := by
    intro j hj hne
    rw [h'.node_eq j (Nat.lt_of_lt_of_le hj h.size_le) hne, h.node_eq j hj hne]
  origin := h.origin.trans h'.origin
  children := by
    obtain ⟨new, hnew, hge⟩ := h.children
    obtain ⟨new', hnew', hge'⟩ := h'.children
    refine ⟨new ++ new', by rw [hnew', hnew, List.append_assoc], ?_⟩
    intro c hc
    cases List.mem_append.1 hc with
    | inl hc => exact hge c hc
    | inr hc => exact Nat.le_trans h.size_le (hge' c hc)
  parent_new := by
    intro j hj hj'
    by_cases hlt : j < s'.tree.size
    · have hne : j ≠ id := by omega
      rw [h'.node_eq j hlt hne]
      exact h.parent_new j hj hlt
    · obtain ⟨q, hq, hge⟩ := h'.parent_new j (by omega) hj'
      have hle := h.size_le
      exact ⟨q, hq, hge.imp_right fun hge => Nat.le_trans hle hge⟩
  unwalked := fun hw => h'.unwalked (h.unwalked hw)
  fault := by
    intro hs
    have hf := h.fault hs
    rw [h'.fault (by rw [hf]; exact hs), hf]

/-- Work on the node that leaves its links alone. -/
theorem modify (h : s.tree.WellFormed) (hid : id < s.tree.size) {f : Node → Node}
    (horigin : (s.node id).SameOrigin (f (s.node id)))
    (hchildren : (f (s.node id)).children = (s.node id).children) :
    s.Extends id (s.modify id f) where
  wellFormed := h.modify horigin.parent hchildren
  size_le := Nat.le_of_eq (size_modify s id f).symm
  node_eq := fun j _ hne => node_modify_of_ne s f hne.symm
  origin := by rw [node_modify_self s f hid]; exact horigin
  children := ⟨[], by rw [node_modify_self s f hid, hchildren, List.append_nil], by simp⟩
  parent_new := by
    intro j hj hj'
    rw [size_modify] at hj'
    omega
  unwalked := fun hw => hw.modify hid horigin
  fault := fun _ => rfl

theorem push (h : s.tree.WellFormed) (hid : id < s.tree.size) {n : Node}
    (hparent : n.parent = some id) (hchildren : n.children = [])
    (hwalk : n.consumed = false ∧ n.consumedChildren = 0) :
    s.Extends id { s with
      tree := s.tree.push n
      counters := { s.counters with nodesCreated := s.counters.nodesCreated + 1 } } where
  wellFormed := h.push hchildren
  size_le := by rw [Tree.size_push]; omega
  node_eq := fun j hj _ => Tree.node_push_of_lt s.tree n hj
  origin := by
    show (s.tree.node id).SameOrigin ((s.tree.push n).node id)
    rw [Tree.node_push_of_lt s.tree n hid]
    exact .refl _
  children := by
    refine ⟨[], ?_, by simp⟩
    show ((s.tree.push n).node id).children = _
    rw [Tree.node_push_of_lt s.tree n hid, List.append_nil]
    rfl
  parent_new := by
    intro j hj hj'
    rw [Tree.size_push] at hj'
    have hnew : j = s.tree.size := by omega
    refine ⟨id, ?_, .inl rfl⟩
    show ((s.tree.push n).node j).parent = _
    rw [hnew, Tree.node_push_size, hparent]
  unwalked := by
    intro hw j
    rcases Nat.lt_trichotomy j s.tree.size with hj | hj | hj
    · show ((s.tree.push n).node j).consumed = false ∧ ((s.tree.push n).node j).consumedChildren = 0
      rw [Tree.node_push_of_lt s.tree n hj]
      exact hw j
    · subst hj
      show ((s.tree.push n).node _).consumed = false ∧ ((s.tree.push n).node _).consumedChildren = 0
      rw [Tree.node_push_size]
      exact hwalk
    · have hsize := s.tree.size_push n
      show ((s.tree.push n).node j).consumed = false ∧ ((s.tree.push n).node j).consumedChildren = 0
      rw [Tree.node_of_size_le (by omega)]
      exact ⟨rfl, rfl⟩
  fault := fun _ => rfl

theorem congr {s₁ : RunState} (h : s.Extends id s') (htree : s₁.tree = s'.tree)
    (hfault : s₁.fault = s'.fault) : s.Extends id s₁ := by
  obtain ⟨tree, counters, fault, journal⟩ := s₁
  subst htree hfault
  exact ⟨h.wellFormed, h.size_le, h.node_eq, h.origin, h.children, h.parent_new, h.unwalked,
    h.fault⟩

theorem moveTo (h : s.Extends id s') (hid : id < s.tree.size) (point : Nat) :
    s.Extends id (s'.moveTo id point) :=
  h.trans hid (modify h.wellFormed (Nat.lt_of_lt_of_le hid h.size_le) ⟨rfl, rfl, rfl, rfl, rfl, rfl,
    rfl⟩ rfl)

theorem addExpected (h : s.Extends id s') (hid : id < s.tree.size) (e : Expectations) :
    s.Extends id (s'.addExpected id e) :=
  h.trans hid (modify h.wellFormed (Nat.lt_of_lt_of_le hid h.size_le) ⟨rfl, rfl, rfl, rfl, rfl, rfl,
    rfl⟩ rfl)

/-- The node gives up the children that it got, or takes other new nodes that name it. -/
theorem setChildren (hs : s.tree.WellFormed) (h : s.Extends id s') (hid : id < s.tree.size)
    {f : Node → Node} {new : List NodeId} (horigin : (s'.node id).SameOrigin (f (s'.node id)))
    (hchildren : (f (s'.node id)).children = (s.node id).children ++ new) (hnodup : new.Nodup)
    (hnew : ∀ c ∈ new, s.tree.size ≤ c ∧ c < s'.tree.size ∧ (s'.node c).parent = some id) :
    s.Extends id (s'.modify id f) where
  wellFormed := by
    have hid' := Nat.lt_of_lt_of_le hid h.size_le
    refine h.wellFormed.setChildren hid' horigin.parent hchildren ?_ ?_
    · refine List.nodup_append.2 ⟨hs.nodup id, hnodup, ?_⟩
      intro a ha b hb hab
      have hlt := hs.lt_size ha
      have hge := (hnew b hb).1
      exact absurd (hab ▸ hlt) (Nat.not_lt.2 hge)
    · intro c hc
      cases List.mem_append.1 hc with
      | inl hc =>
        obtain ⟨got, hgot, -⟩ := h.children
        have hmem : c ∈ (s'.tree.node id).children := by
          have happ := List.mem_append_left got hc
          rwa [← hgot] at happ
        exact ⟨h.wellFormed.lt_of_mem hmem, h.wellFormed.lt_size hmem, h.wellFormed.parent_eq hmem⟩
      | inr hc =>
        obtain ⟨hge, hlt, hpar⟩ := hnew c hc
        exact ⟨Nat.lt_of_lt_of_le hid hge, hlt, hpar⟩
  size_le := by rw [size_modify]; exact h.size_le
  node_eq := by
    intro j hj hne
    rw [node_modify_of_ne s' f hne.symm]
    exact h.node_eq j hj hne
  origin := by
    rw [node_modify_self s' f (Nat.lt_of_lt_of_le hid h.size_le)]
    exact h.origin.trans horigin
  children := by
    refine ⟨new, ?_, fun c hc => (hnew c hc).1⟩
    rw [node_modify_self s' f (Nat.lt_of_lt_of_le hid h.size_le), hchildren]
  parent_new := by
    intro j hj hj'
    rw [size_modify] at hj'
    have hne : id ≠ j := by omega
    rw [node_modify_of_ne s' f hne]
    exact h.parent_new j hj hj'
  unwalked := fun hw => (h.unwalked hw).modify (Nat.lt_of_lt_of_le hid h.size_le) horigin
  fault := h.fault

/-- Giving up the children after the first `base` undoes the work of a step on the links. -/
theorem keepChildren (hs : s.tree.WellFormed) (h : s.Extends id s') (hid : id < s.tree.size)
    {base : Nat} (hbase : base = (s.node id).children.length) :
    s.Extends id (s'.keepChildren id base) := by
  obtain ⟨new, hnew, -⟩ := h.children
  have hnone : ∀ c ∈ ([] : List NodeId),
      s.tree.size ≤ c ∧ c < s'.tree.size ∧ (s'.node c).parent = some id := by simp
  refine h.setChildren hs hid ⟨rfl, rfl, rfl, rfl, rfl, rfl, rfl⟩ ?_ List.nodup_nil hnone
  rw [hbase, hnew, List.append_nil, List.take_left]

end Extends

@[simp] theorem tree_noteUnresolved (s : RunState) (ctx : Context) (id : NodeId) :
    (s.noteUnresolved ctx id).tree = s.tree := by
  unfold noteUnresolved
  dsimp only
  split <;> rfl

@[simp] theorem fault_noteUnresolved (s : RunState) (ctx : Context) (id : NodeId) :
    (s.noteUnresolved ctx id).fault = s.fault := by
  unfold noteUnresolved
  dsimp only
  split <;> rfl

theorem children_keepChildren (s : RunState) {id : Nat} (hid : id < s.tree.size) (base : Nat) :
    ((s.keepChildren id base).node id).children = (s.node id).children.take base := by
  rw [keepChildren, node_modify_self s _ hid]

theorem Extends.children_keepChildren {id : Nat} {s s' : RunState} (h : s.Extends id s')
    (hid : id < s.tree.size) {base : Nat} (hbase : base = (s.node id).children.length) :
    ((s'.keepChildren id base).node id).children = (s.node id).children := by
  obtain ⟨new, hnew, -⟩ := h.children
  rw [s'.children_keepChildren (Nat.lt_of_lt_of_le hid h.size_le), hnew, hbase, List.take_left]

section Grow

variable {α : Type} {g : Node → α} (s : RunState) (ctx : Context) (id : NodeId) (name : String)
  (role : Role)

/-- Of the nodes that were there, a new child changes its parent alone, and of that the children. -/
theorem apply_node_grow (hg : ∀ (n : Node) children, g { n with children } = g n) {k : Nat}
    (hk : k < s.tree.size) : g ((s.grow ctx id name role).node k) = g (s.node k) :=
  (Tree.apply_node_modify g (hg _ _) k).trans (congrArg g (Tree.node_push_of_lt s.tree _ hk))

theorem apply_node_grow_size (hg : ∀ (n : Node) children, g { n with children } = g n) :
    g ((s.grow ctx id name role).node s.tree.size) =
      g (.fresh name (some id) role (ctx.rules.rule? name).isSome (s.cursor id)) :=
  (Tree.apply_node_modify g (hg _ _) _).trans (congrArg g (Tree.node_push_size s.tree _))

/-- What the new child has in common with no node at all, `grow` leaves alone throughout the table.
-/
theorem apply_node_grow_of_fresh (hg : ∀ (n : Node) children, g { n with children } = g n)
    (hfresh : g (.fresh name (some id) role (ctx.rules.rule? name).isSome (s.cursor id)) =
      g default) (k : Nat) : g ((s.grow ctx id name role).node k) = g (s.node k) := by
  rcases Nat.lt_trichotomy k s.tree.size with hlt | rfl | hgt
  · exact s.apply_node_grow ctx id name role hg hlt
  · refine ((s.apply_node_grow_size ctx id name role hg).trans hfresh).trans ?_
    exact (congrArg g (Tree.node_of_size_le (Nat.le_refl s.tree.size))).symm
  · refine congrArg g ((Tree.node_of_size_le ?_).trans
      (Tree.node_of_size_le (Nat.le_of_lt hgt)).symm)
    rw [size_grow]
    exact hgt

theorem parent_grow {q k : Nat} :
    ((s.grow ctx id name role).node k).parent = some q ↔
      (s.node k).parent = some q ∨ k = s.tree.size ∧ q = id := by
  have hold : ∀ {k}, k < s.tree.size →
      ((s.grow ctx id name role).node k).parent = (s.node k).parent :=
    s.apply_node_grow ctx id name role fun _ _ => rfl
  have hnew : ((s.grow ctx id name role).node s.tree.size).parent = some id :=
    s.apply_node_grow_size ctx id name role (g := Node.parent) fun _ _ => rfl
  constructor
  · intro h
    have hk : k < (s.grow ctx id name role).tree.size := Tree.lt_size_of_parent h
    rw [size_grow] at hk
    rcases Nat.lt_succ_iff_lt_or_eq.1 hk with hlt | rfl
    · exact .inl ((hold hlt).symm.trans h)
    · exact .inr ⟨rfl, Option.some.inj (h.symm.trans hnew)⟩
  · rintro (h | ⟨rfl, rfl⟩)
    · exact (hold (Tree.lt_size_of_parent h)).trans h
    · exact hnew

end Grow

end RunState

namespace Terminal

/-- Terminals leave the links and the origin of their node alone. -/
def Keeps (f : Terminal) : Prop :=
  ∀ n, n.SameOrigin (f n).2 ∧ (f n).2.children = n.children

theorem keeps_rfl {f : Terminal} (h : ∀ n, (f n).2 = n) : f.Keeps := by
  intro n
  rw [h n]
  exact ⟨.refl n, rfl⟩

theorem keeps_take (src : Source) (amount : Nat) (n : Node) :
    n.SameOrigin (take src amount n) ∧ (take src amount n).children = n.children :=
  ⟨⟨rfl, rfl, rfl, rfl, rfl, rfl, rfl⟩, rfl⟩

theorem keeps_byte (src : Source) (k : ByteClass) : (byte src k).Keeps := by
  intro n
  unfold byte
  split
  · exact keeps_take src 1 n
  · exact ⟨.refl n, rfl⟩

theorem keeps_takeRead (src : Source) (reader : List Char → Option (List Char)) :
    (takeRead src reader).Keeps := by
  intro n
  unfold takeRead
  split
  · exact keeps_take src _ n
  · exact ⟨.refl n, rfl⟩

theorem keeps_attached (src : Source) : (attached src).Keeps := by
  intro n
  unfold attached
  split
  · split
    · exact ⟨.refl n, rfl⟩
    · exact keeps_takeRead src _ n
  · exact ⟨.refl n, rfl⟩

def Spares {α : Type} (g : Node → α) (f : Terminal) : Prop := ∀ n, g (f n).2 = g n

section Spares

variable {α : Type} {g : Node → α}

theorem spares_take (hg : ∀ (n : Node) literal point, g { n with literal, point } = g n)
    (src : Source) (amount : Nat) (n : Node) : g (take src amount n) = g n :=
  hg n _ _

theorem spares_byte (hg : ∀ (n : Node) literal point, g { n with literal, point } = g n)
    (src : Source) (k : ByteClass) : (byte src k).Spares g := by
  intro n
  unfold byte
  split
  · exact spares_take hg src 1 n
  · rfl

theorem spares_takeRead (hg : ∀ (n : Node) literal point, g { n with literal, point } = g n)
    (src : Source) (reader : List Char → Option (List Char)) : (takeRead src reader).Spares g := by
  intro n
  unfold takeRead
  split
  · exact spares_take hg src _ n
  · rfl

theorem spares_attached (hg : ∀ (n : Node) literal point, g { n with literal, point } = g n)
    (src : Source) : (attached src).Spares g := by
  intro n
  unfold attached
  split
  · split
    · rfl
    · exact spares_takeRead hg src _ n
  · rfl

end Spares

end Terminal

namespace Expr.Own
open Terminal (Spares)

variable {src : Source} {e : Expr} {f : Terminal} {α : Type} {g : Node → α}

theorem keeps (h : e.Own src f) : f.Keeps := by
  cases h with
  | byte k => exact Terminal.keeps_byte src k
  | text t => exact Terminal.keeps_takeRead src _
  | attached => exact Terminal.keeps_attached src
  | pattern p => exact Terminal.keeps_takeRead src _
  | bytes k least => exact fun n => Terminal.keeps_take src _ n
  | look k offset => exact Terminal.keeps_rfl fun _ => rfl
  | atEnd => exact Terminal.keeps_rfl fun _ => rfl
  | skip amount => exact fun _ => ⟨⟨rfl, rfl, rfl, rfl, rfl, rfl, rfl⟩, rfl⟩
  | record t => exact fun _ => ⟨⟨rfl, rfl, rfl, rfl, rfl, rfl, rfl⟩, rfl⟩
  | expect name => exact fun _ => ⟨⟨rfl, rfl, rfl, rfl, rfl, rfl, rfl⟩, rfl⟩

/-- A terminal that does not report a name touches the text and the cursor of its node only. -/
theorem spares_or (h : e.Own src f)
    (hg : ∀ (n : Node) literal point, g { n with literal, point } = g n) :
    f.Spares g ∨ ∃ name, e = .expect name ∧ f = .expect src name := by
  cases h with
  | byte k => exact .inl (Terminal.spares_byte hg src k)
  | text t => exact .inl (Terminal.spares_takeRead hg src _)
  | attached => exact .inl (Terminal.spares_attached hg src)
  | pattern p => exact .inl (Terminal.spares_takeRead hg src _)
  | bytes k least => exact .inl fun n => Terminal.spares_take hg src _ n
  | look k offset => exact .inl fun _ => rfl
  | atEnd => exact .inl fun _ => rfl
  | skip amount => exact .inl fun n => hg n n.literal _
  | record t => exact .inl fun n => hg n _ n.point
  | expect name => exact .inr ⟨name, rfl, rfl⟩

theorem spares (h : e.Own src f)
    (hg : ∀ (n : Node) literal point, g { n with literal, point } = g n)
    (hexpected : ∀ (n : Node) expected, g { n with expected } = g n) : f.Spares g := by
  obtain hspares | ⟨name, -, rfl⟩ := h.spares_or hg
  · exact hspares
  · exact fun n => hexpected n _

end Expr.Own

theorem Node.keeps_missed (src : Source) (c : Call) (n : Node) :
    n.SameOrigin (n.missed src c) ∧ (n.missed src c).children = n.children := by
  unfold missed
  split
  · split
    · exact ⟨.refl n, rfl⟩
    · exact ⟨⟨rfl, rfl, rfl, rfl, rfl, rfl, rfl⟩, rfl⟩
  · exact ⟨.refl n, rfl⟩

/-- A failed call changes nothing of its caller but what that expected. -/
theorem Node.missed_spares {α : Type} {g : Node → α}
    (hg : ∀ (n : Node) expected, g { n with expected } = g n) (src : Source) (c : Call) (n : Node) :
    g (n.missed src c) = g n := by
  unfold missed
  split
  · split
    · rfl
    · exact hg n _
  · rfl

namespace Step

def Keeps (P : RunState → Prop) (r : Step) : Prop := ∀ s, P s → P (r s).2

section Keeps

variable {P : RunState → Prop} {id : NodeId} {r : Step} {rs : List Step} {s : RunState}

theorem keeps_ifElse {yes no : Step} (h : Keeps P r) (hyes : Keeps P yes) (hno : Keeps P no) :
    Keeps P (ifElse r yes no) := by
  intro s hs
  have hr := h s hs
  unfold ifElse
  cases hrun : r s with
  | mk ok s' =>
    rw [hrun] at hr
    cases ok with
    | true => exact hyes s' hr
    | false => exact hno s' hr

theorem keeps_all (h : ∀ r ∈ rs, Keeps P r) : Keeps P (all rs) := by
  induction rs with
  | nil => exact fun s hs => hs
  | cons r rs ih =>
    obtain ⟨hfirst, hothers⟩ := List.forall_mem_cons.1 h
    exact keeps_ifElse hfirst (ih hothers) fun _ hs => hs

theorem keeps_any (h : ∀ r ∈ rs, Keeps P r) : Keeps P (any rs) := by
  induction rs with
  | nil => exact fun s hs => hs
  | cons r rs ih =>
    obtain ⟨hfirst, hothers⟩ := List.forall_mem_cons.1 h
    exact keeps_ifElse hfirst (fun _ hs => hs) (ih hothers)

/-- A sequence keeps what the way back to the cursor keeps. -/
theorem keeps_sequence (hback : ∀ s s', P s → P s' → P (s'.moveTo id (s.cursor id)))
    (h : ∀ r ∈ rs, Keeps P r) : Keeps P (sequence id rs) := by
  intro s hs
  have hall := keeps_all h s hs
  unfold sequence
  cases hrun : all rs s with
  | mk ok s' =>
    rw [hrun] at hall
    cases ok with
    | true => exact hall
    | false => exact hback s s' hs hall

theorem keeps_trials {point base : Nat} (hmove : ∀ s, P s → P (s.moveTo id point))
    (htake : ∀ s, P s → P (s.keepChildren id base)) (h : ∀ r ∈ rs, Keeps P r) (hs : P s) :
    P (trials id point base rs s).2 := by
  induction rs generalizing s with
  | nil => exact hs
  | cons r rs ih =>
    obtain ⟨hfirst, hrest⟩ := List.forall_mem_cons.1 h
    exact ih hrest (htake _ (hfirst _ (hmove _ hs)))

/-- A repetition keeps what its turns and the end of the last of them keep. -/
theorem keeps_turns (hback : ∀ point base s, P s → P (takeBack id point base s)) (h : Keeps P r)
    (fuel count : Nat) (hs : P s) : P (turns id r fuel count s).2 := by
  induction fuel generalizing count s with
  | zero => exact hs
  | succ fuel ih =>
    have hr := h s hs
    rw [turns]
    cases hrun : r s with
    | mk matched s' =>
      rw [hrun] at hr
      dsimp only
      split
      · exact ih (count + 1) hr
      · exact hback _ _ s' hr

end Keeps

/-- The step works on the node and below it. -/
def Local (id : Nat) (r : Step) : Prop :=
  ∀ s : RunState, s.tree.WellFormed → id < s.tree.size → s.Extends id (r s).2

section Local

variable {id : Nat} {r : Step} {rs : List Step}

theorem local_own {f : Terminal} (hf : f.Keeps) : Local id (own id f) := by
  intro s hs hid
  obtain ⟨horigin, hchildren⟩ := hf (s.node id)
  exact .modify hs hid horigin hchildren

theorem Local.trans (h : Local id r) {s s' : RunState} (hid : id < s.tree.size)
    (hext : s.Extends id s') : s.Extends id (r s').2 :=
  hext.trans hid (h s' hext.wellFormed (Nat.lt_of_lt_of_le hid hext.size_le))

theorem local_ifElse {yes no : Step} (h : Local id r) (hyes : Local id yes) (hno : Local id no) :
    Local id (ifElse r yes no) := fun s hs hid =>
  keeps_ifElse (P := s.Extends id) (fun _ hext => h.trans hid hext)
    (fun _ hext => hyes.trans hid hext) (fun _ hext => hno.trans hid hext) s (.refl hs)

theorem local_all (h : ∀ r ∈ rs, Local id r) : Local id (all rs) := fun s hs hid =>
  keeps_all (P := s.Extends id) (fun r hr _ hext => (h r hr).trans hid hext) s (.refl hs)

theorem local_any (h : ∀ r ∈ rs, Local id r) : Local id (any rs) := fun s hs hid =>
  keeps_any (P := s.Extends id) (fun r hr _ hext => (h r hr).trans hid hext) s (.refl hs)

theorem local_negate (h : Local id r) : Local id (negate r) := h

theorem local_sequence (h : ∀ r ∈ rs, Local id r) : Local id (sequence id rs) := by
  intro s hs hid
  have hall := local_all h s hs hid
  unfold sequence
  cases hrun : all rs s with
  | mk ok s' =>
    rw [hrun] at hall
    cases ok with
    | true => exact hall
    | false => exact hall.moveTo hid _

/-- The children that a candidate made are new nodes that name the node as their parent. -/
structure Trial.Fits (id : Nat) (s s' : RunState) (t : Trial NodeId) : Prop where
  nodup : t.children.Nodup
  new : ∀ c ∈ t.children, s.tree.size ≤ c ∧ c < s'.tree.size ∧ (s'.node c).parent = some id

theorem Trial.Fits.later {s s' s'' : RunState} {t : Trial NodeId} (h : t.Fits id s s')
    (hid : id < s.tree.size) (hext : s'.Extends id s'') : t.Fits id s s'' where
  nodup := h.nodup
  new := by
    intro c hc
    obtain ⟨hge, hlt, hpar⟩ := h.new c hc
    have hne : c ≠ id := Nat.ne_of_gt (Nat.lt_of_lt_of_le hid hge)
    refine ⟨hge, Nat.lt_of_lt_of_le hlt hext.size_le, ?_⟩
    rw [hext.node_eq c hlt hne, hpar]

theorem extends_tried (h : Local id r) (point : Nat) {s : RunState} (hs : s.tree.WellFormed)
    (hid : id < s.tree.size) : s.Extends id (r (s.moveTo id point)).2 :=
  h.trans hid ((RunState.Extends.refl hs).moveTo hid point)

theorem trials_cons (id : NodeId) (point base : Nat) (r : Step) (rs : List Step) (s : RunState) :
    trials id point base (r :: rs) s =
      let tried := (r (s.moveTo id point)).2
      let rest := trials id point base rs (tried.keepChildren id base)
      (⟨(r (s.moveTo id point)).1, tried.cursor id, tried.childrenFrom id base⟩ :: rest.1, rest.2) :=
  rfl

/-- Trials leave the node with the children that it had. -/
theorem trials_spec (h : ∀ r ∈ rs, Local id r) (point : Nat) {s : RunState} {base : Nat}
    (hs : s.tree.WellFormed) (hid : id < s.tree.size)
    (hbase : base = (s.node id).children.length) :
    s.Extends id (trials id point base rs s).2 ∧
      ((trials id point base rs s).2.node id).children = (s.node id).children ∧
      ∀ t ∈ (trials id point base rs s).1, t.Fits id s (trials id point base rs s).2 := by
  induction rs generalizing s with
  | nil => exact ⟨.refl hs, rfl, by simp [trials]⟩
  | cons r rs ih =>
    have htried := extends_tried (h r List.mem_cons_self) point hs hid
    generalize htr : (r (s.moveTo id point)).2 = tried at htried
    have hkeep : s.Extends id (tried.keepChildren id base) := htried.keepChildren hs hid hbase
    have hid₃ := Nat.lt_of_lt_of_le hid hkeep.size_le
    have hkept := htried.children_keepChildren hid hbase
    obtain ⟨-, hge⟩ := htried.childrenFrom hbase
    obtain ⟨hext, hsame, hfits⟩ := ih (fun x hx => h x (List.mem_cons_of_mem r hx)) hkeep.wellFormed
      hid₃ (by rw [hkept, hbase])
    have hsize : (tried.keepChildren id base).tree.size = tried.tree.size := RunState.size_modify _ _ _
    -- the first trial: the children that `r` added, which `keepChildren` has just cut off
    have hfirst : Trial.Fits id s (tried.keepChildren id base)
        ⟨(r (s.moveTo id point)).1, tried.cursor id, tried.childrenFrom id base⟩ := by
      refine ⟨(htried.wellFormed.nodup id).sublist (List.drop_sublist _ _), fun c hc => ?_⟩
      have hmem : c ∈ (tried.node id).children := List.mem_of_mem_drop hc
      have hne : id ≠ c := Nat.ne_of_lt (Nat.lt_of_lt_of_le hid (hge c hc))
      rw [hsize, RunState.keepChildren, RunState.node_modify_of_ne _ _ hne]
      exact ⟨hge c hc, htried.wellFormed.lt_size hmem, htried.wellFormed.parent_eq hmem⟩
    rw [trials_cons, htr]
    refine ⟨hkeep.trans hid hext, hsame.trans hkept, ?_⟩
    intro t ht
    cases List.mem_cons.1 ht with
    | inl heq => exact heq ▸ hfirst.later hid hext
    | inr hin =>
      have hrest := hfits t hin
      refine ⟨hrest.nodup, fun c hc => ?_⟩
      obtain ⟨hle, hlt, hpar⟩ := hrest.new c hc
      exact ⟨Nat.le_trans hkeep.size_le hle, hlt, hpar⟩

theorem mem_of_ranked {κ : Type} {weight : κ → Nat} {number : Nat} {ts : List (Trial κ)}
    {x : Ranked κ} (h : x ∈ ranked weight number ts) : x.trial ∈ ts ∧ x.trial.matched = true := by
  induction ts generalizing number with
  | nil => simp [ranked] at h
  | cons t ts ih =>
    rw [ranked] at h
    split at h
    · next hmatched =>
      cases List.mem_cons.1 h with
      | inl heq => subst heq; exact ⟨List.mem_cons_self, hmatched⟩
      | inr hin => exact ⟨List.mem_cons_of_mem t (ih hin).1, (ih hin).2⟩
    · exact ⟨List.mem_cons_of_mem t (ih h).1, (ih h).2⟩

theorem mem_of_heaviest {κ : Type} {xs : List (Ranked κ)} {x : Ranked κ}
    (h : heaviest xs = some x) : x ∈ xs := by
  induction xs with
  | nil => simp [heaviest] at h
  | cons y ys ih =>
    rw [heaviest] at h
    split at h
    · next hnone =>
      cases h
      exact List.mem_cons_self
    · next best hbest =>
      split at h
      · cases h
        exact List.mem_cons_of_mem y (ih hbest)
      · cases h
        exact List.mem_cons_self

theorem extends_adopt {s s' : RunState} {t : Trial NodeId} (hs : s.tree.WellFormed)
    (hid : id < s.tree.size) (h : s.Extends id s')
    (hsame : (s'.node id).children = (s.node id).children) (ht : t.Fits id s s') :
    s.Extends id (s'.addChildren id t.children) := by
  refine h.setChildren (f := fun n => { n with children := n.children ++ t.children }) hs hid
    ⟨rfl, rfl, rfl, rfl, rfl, rfl, rfl⟩ ?_ ht.nodup ht.new
  show (s'.node id).children ++ t.children = _
  rw [hsame]

theorem extends_settle {s s' : RunState} {ts : List (Trial NodeId)} (point : Nat)
    (hs : s.tree.WellFormed) (hid : id < s.tree.size) (h : s.Extends id s')
    (hsame : (s'.node id).children = (s.node id).children) (hfits : ∀ t ∈ ts, t.Fits id s s') :
    s.Extends id (settle id point (ts, s')).2 := by
  have hid' : id < s'.tree.size := Nat.lt_of_lt_of_le hid h.size_le
  have hmove : s'.Extends id (s'.moveTo id point) :=
    (RunState.Extends.refl h.wellFormed).moveTo hid' point
  have hmoved := h.trans hid hmove
  simp only [settle]
  split
  · exact hmoved
  split
  · next best hbest =>
    have hfit := hfits best.trial (mem_of_ranked (mem_of_heaviest hbest)).1
    have hchildren : ((s'.moveTo id point).node id).children = (s.node id).children := by
      rw [RunState.moveTo, RunState.node_modify_self s' _ hid', hsame]
    have hadd := extends_adopt hs hid hmoved hchildren (hfit.later hid hmove)
    -- the report of the choice changes neither the table nor the fault
    exact (hadd.moveTo hid best.trial.point).congr rfl rfl
  · exact hmoved.addExpected hid _

theorem local_alternation (h : ∀ r ∈ rs, Local id r) : Local id (alternation id rs) := by
  intro s hs hid
  obtain ⟨hext, hsame, hfits⟩ := trials_spec h (s.cursor id) (s := s.noteAlternation) hs hid rfl
  have hnoted : s.Extends id s.noteAlternation := (RunState.Extends.refl hs).congr rfl rfl
  exact extends_settle (s.cursor id) hs hid (hnoted.trans hid hext) hsame
    fun t ht => ⟨(hfits t ht).nodup, (hfits t ht).new⟩

theorem extends_takeBack {s s' : RunState} (point : Nat) (hs : s.tree.WellFormed)
    (hid : id < s.tree.size) (h : s.Extends id s') :
    s.Extends id (takeBack id point (s.node id).children.length s') :=
  ((h.keepChildren hs hid rfl).addExpected hid _).moveTo hid point

theorem extends_turns (h : Local id r) (fuel count : Nat) {s : RunState} (hs : s.tree.WellFormed)
    (hid : id < s.tree.size) : s.Extends id (turns id r fuel count s).2 := by
  induction fuel generalizing count s with
  | zero => exact .refl hs
  | succ fuel ih =>
    have hr := h s hs hid
    rw [turns]
    cases hrun : r s with
    | mk matched s' =>
      rw [hrun] at hr
      by_cases hon : (matched && s.cursor id < s'.cursor id) = true
      · simp only [hon, if_true]
        exact hr.trans hid (ih _ hr.wellFormed (Nat.lt_of_lt_of_le hid hr.size_le))
      · simp only [hon]
        exact extends_takeBack _ hs hid hr

theorem extends_iterate (ctx : Context) (h : Local id r) {s : RunState} (hs : s.tree.WellFormed)
    (hid : id < s.tree.size) : s.Extends id (iterate ctx id r s).2 :=
  extends_turns h _ _ hs hid

theorem extends_grow (ctx : Context) (name : String) (role : Role) {s : RunState}
    (hs : s.tree.WellFormed) (hid : id < s.tree.size) :
    s.Extends id (s.grow ctx id name role) := by
  let child := Node.fresh name (some id) role (ctx.rules.rule? name).isSome (s.cursor id)
  let pushed : RunState := { s with
    tree := s.tree.push child
    counters := { s.counters with nodesCreated := s.counters.nodesCreated + 1 } }
  have hpush : s.Extends id pushed := .push hs hid rfl rfl ⟨rfl, rfl⟩
  have hsize : pushed.tree.size = s.tree.size + 1 := Tree.size_push _ _
  have hgrow : s.grow ctx id name role = pushed.addChildren id [s.tree.size] := by
    show pushed.addChildren id [pushed.tree.size - 1] = _
    rw [hsize, Nat.add_sub_cancel]
  rw [hgrow]
  refine hpush.setChildren (f := fun n => { n with children := n.children ++ [s.tree.size] }) hs hid
    ⟨rfl, rfl, rfl, rfl, rfl, rfl, rfl⟩ ?_ (List.nodup_singleton s.tree.size) ?_
  · show (pushed.node id).children ++ _ = _
    rw [show pushed.node id = s.node id from Tree.node_push_of_lt s.tree child hid]
  · intro c hc
    rw [List.mem_singleton] at hc
    subst hc
    refine ⟨Nat.le_refl _, by rw [hsize]; exact Nat.lt_succ_self _, ?_⟩
    rw [show pushed.node s.tree.size = child from Tree.node_push_size s.tree child]
    rfl

/-- Work on a new child is work below its parent. -/
theorem extends_below {s s₁ s₂ : RunState} (hid : id < s.tree.size) (h : s.Extends id s₁)
    (h' : s₁.Extends s.tree.size s₂) : s.Extends id s₂ where
  wellFormed := h'.wellFormed
  size_le := Nat.le_trans h.size_le h'.size_le
  node_eq := by
    intro j hj hne
    rw [h'.node_eq j (Nat.lt_of_lt_of_le hj h.size_le) (Nat.ne_of_lt hj), h.node_eq j hj hne]
  origin := by
    rw [h'.node_eq id (Nat.lt_of_lt_of_le hid h.size_le) (Nat.ne_of_lt hid)]
    exact h.origin
  children := by
    rw [h'.node_eq id (Nat.lt_of_lt_of_le hid h.size_le) (Nat.ne_of_lt hid)]
    exact h.children
  parent_new := by
    intro j hj hj'
    have hle := h.size_le
    by_cases hlt : j < s₁.tree.size
    · obtain ⟨q, hq, hge⟩ := h.parent_new j hj hlt
      refine ⟨q, ?_, hge⟩
      by_cases hne : j = s.tree.size
      · subst hne
        rw [h'.origin.parent, hq]
      · rw [h'.node_eq j hlt hne, hq]
    · obtain ⟨q, hq, hge⟩ := h'.parent_new j (by omega) hj'
      refine ⟨q, hq, .inr ?_⟩
      cases hge with
      | inl heq => exact Nat.le_of_eq heq.symm
      | inr hge => exact Nat.le_trans hle hge
  unwalked := fun hw => h'.unwalked (h.unwalked hw)
  fault := by
    intro hs
    have hf := h.fault hs
    rw [h'.fault (by rw [hf]; exact hs), hf]

theorem local_call (ctx : Context) {run : NodeId → Step} (c : Call)
    (h : ∀ child, Local child (run child)) : Local id (call ctx run id c) := by
  intro s hs hid
  have hgrow := extends_grow ctx c.rule c.role hs hid
  have hsize : (s.grow ctx id c.rule c.role).tree.size = s.tree.size + 1 := s.size_grow ctx id _ _
  have hrun := h s.tree.size _ hgrow.wellFormed (by omega)
  have hwork := extends_below hid hgrow hrun
  unfold call
  split
  · next s' heq =>
    rw [heq] at hwork
    exact hwork.moveTo hid _
  · next s' heq =>
    rw [heq] at hwork
    obtain ⟨horigin, hchildren⟩ := Node.keeps_missed ctx.source c (s'.node id)
    exact hwork.trans hid (.modify hwork.wellFormed (Nat.lt_of_lt_of_le hid hwork.size_le)
      horigin hchildren)

end Local

end Step

theorem Expr.local_step (ctx : Context) {run : NodeId → Step} (id : Nat)
    (h : ∀ child, Step.Local child (run child)) (e : Expr) : Step.Local id (e.step ctx run id) := by
  induction e using Expr.induct ctx.source with
  | call c =>
    rw [c.step_body]
    exact Step.local_call ctx c h
  | seq es ih => exact Step.local_sequence (forall_mem_steps ih)
  | alt es ih => exact Step.local_alternation (forall_mem_steps ih)
  | many e ih => exact fun _ hs hid => Step.extends_iterate ctx ih hs hid
  | tally e least ih => exact fun _ hs hid => (Step.extends_iterate ctx ih hs hid).congr rfl rfl
  | counted e test ih => exact fun _ hs hid => Step.extends_iterate ctx ih hs hid
  | own hown =>
    rw [hown.step_eq]
    exact Step.local_own hown.keeps
  | probe label => exact fun _ hs _ => (RunState.Extends.refl hs).congr rfl rfl
  | not e ih => exact Step.local_negate ih
  | all es ih => exact Step.local_all (forall_mem_steps ih)
  | any es ih => exact Step.local_any (forall_mem_steps ih)
  | ifElse e yes no ihe ihyes ihno => exact Step.local_ifElse ihe ihyes ihno
  | const ok => exact fun _ hs _ => .refl hs

theorem Expr.local_steps (ctx : Context) {run : NodeId → Step} (id : Nat)
    (h : ∀ child, Step.Local child (run child)) (es : List Expr) :
    ∀ r ∈ Expr.steps ctx run id es, Step.Local id r :=
  forall_mem_steps fun e _ => e.local_step ctx id h

namespace RawParse

variable (p : RawParse) (source : Source) (collapse : Bool)

@[simp] theorem valid_finish : (p.finish source collapse).valid = p.valid := by
  cases collapse <;> rfl

@[simp] theorem expected_finish :
    (p.finish source collapse).expected = p.tree.expected Tree.root := by
  cases collapse <;> rfl

end RawParse

namespace Context

theorem attempt_zero (ctx : Context) (id : NodeId) (s : RunState) :
    ctx.attempt 0 id s = if s.fault.isSome then (false, s) else (false, s.giveUp ctx id) := rfl

theorem attempt_succ (ctx : Context) (left : Nat) (id : NodeId) (s : RunState) :
    ctx.attempt (left + 1) id s =
      if s.fault.isSome then (false, s)
      else
        match ctx.rules.rule? (s.node id).name with
        | none => (false, s.noteUnresolved ctx id)
        | some body =>
          RunState.leave id (body.step ctx (ctx.attempt left) id (s.enter id (ctx.limit - left))) :=
  rfl

section Keeps

variable {P : RunState → Prop} {ctx : Context} {left : Nat} {id : NodeId}

/-- Without a level to go nothing happens to the table. -/
theorem keeps_attempt_zero (htree : ∀ {s s'}, P s → s'.tree = s.tree → P s') :
    Step.Keeps P (ctx.attempt 0 id) := by
  intro s hs
  rw [attempt_zero]
  split
  · exact hs
  · exact htree hs rfl

/-- An attempt keeps what its body keeps, if that is said of the table alone and whatever the mark
of the node. -/
theorem keeps_attempt_succ (htree : ∀ {s s'}, P s → s'.tree = s.tree → P s')
    (hmark : ∀ {s} (ok : Bool), P s → P (s.modify id fun n => { n with matched := ok }))
    (hbody : ∀ name body, ctx.rules.rule? name = some body →
      Step.Keeps P (body.step ctx (ctx.attempt left) id)) :
    Step.Keeps P (ctx.attempt (left + 1) id) := by
  intro s hs
  rw [attempt_succ]
  split
  · exact hs
  split
  · exact htree hs (s.tree_noteUnresolved ctx id)
  · next body hrule =>
    have hend := hbody _ body hrule (s.enter id (ctx.limit - left)) (htree hs rfl)
    generalize body.step ctx (ctx.attempt left) id (s.enter id (ctx.limit - left)) = out at hend
    obtain ⟨ok, s'⟩ := out
    exact htree (hmark (ok && s'.fault.isNone) hend) rfl

end Keeps

theorem extends_giveUp (ctx : Context) {id : Nat} {s : RunState} (hs : s.tree.WellFormed)
    (hnone : ¬ s.fault.isSome) : s.Extends id (s.giveUp ctx id) := by
  have hrefl : s.Extends id s := .refl hs
  exact ⟨hs, hrefl.size_le, hrefl.node_eq, hrefl.origin, hrefl.children, hrefl.parent_new,
    hrefl.unwalked, fun hsome => absurd hsome hnone⟩

theorem extends_noteUnresolved (ctx : Context) {id : Nat} {s : RunState} (hs : s.tree.WellFormed) :
    s.Extends id (s.noteUnresolved ctx id) :=
  (RunState.Extends.refl hs).congr (s.tree_noteUnresolved ctx id) (s.fault_noteUnresolved ctx id)

theorem extends_leave {id : Nat} {s s' : RunState} (hid : id < s.tree.size) (h : s.Extends id s')
    (ok : Bool) : s.Extends id (RunState.leave id (ok, s')).2 := by
  have hmark := RunState.Extends.modify h.wellFormed (Nat.lt_of_lt_of_le hid h.size_le)
    (f := fun n => { n with matched := ok && s'.fault.isNone })
    ⟨rfl, rfl, rfl, rfl, rfl, rfl, rfl⟩ rfl
  exact (h.trans hid hmark).congr rfl rfl

theorem local_attempt (ctx : Context) (left : Nat) (id : Nat) :
    Step.Local id (ctx.attempt left id) := by
  induction left generalizing id with
  | zero =>
    intro s hs hid
    rw [attempt_zero]
    split
    · exact .refl hs
    · next hnone => exact extends_giveUp ctx hs hnone
  | succ left ih =>
    intro s hs hid
    rw [attempt_succ]
    split
    · exact .refl hs
    split
    · exact extends_noteUnresolved ctx hs
    · next body _ =>
      have henter : s.Extends id (s.enter id (ctx.limit - left)) :=
        (RunState.Extends.refl hs).congr rfl rfl
      have hbody := Expr.local_step ctx id ih body _ henter.wellFormed hid
      exact extends_leave hid (henter.trans hid hbody) _

/-- What the first node has in common with no node at all, every node has in common with it. -/
theorem apply_node_start {α : Type} (g : Node → α) (ctx : Context) (rule : String)
    (hroot : g (.fresh rule none .plain (ctx.rules.rule? rule).isSome 0) = g default) (j : Nat) :
    g ((RunState.start ctx rule).tree.node j) = g default := by
  cases j with
  | zero => exact hroot
  | succ j => exact congrArg g (Tree.node_of_size_le (Nat.succ_le_succ (Nat.zero_le j)))

theorem wellFormed_start (ctx : Context) (rule : String) :
    (RunState.start ctx rule).tree.WellFormed := by
  have hnil : ∀ p, ((RunState.start ctx rule).tree.node p).children = [] :=
    apply_node_start Node.children ctx rule rfl
  constructor
  · exact Nat.one_pos
  · rfl
  all_goals
    intro p
    rw [hnil]
    simp

theorem extends_run (ctx : Context) (rule : String) :
    (RunState.start ctx rule).Extends Tree.root
      (ctx.attempt ctx.limit Tree.root (.start ctx rule)).2 :=
  local_attempt ctx ctx.limit Tree.root _ (wellFormed_start ctx rule) Nat.one_pos

variable {ctx : Context} {rule : String} {p : RawParse}

/-- A run that ends well ends in the state of the attempt at the root. -/
theorem rawParse_eq_ok (h : ctx.rawParse rule = .ok p) :
    ∃ ok s, ctx.attempt ctx.limit Tree.root (.start ctx rule) = (ok, s) ∧ s.fault = none ∧
      p.tree = s.tree := by
  unfold rawParse at h
  cases hrun : ctx.attempt ctx.limit Tree.root (.start ctx rule) with
  | mk ok s =>
    rw [hrun] at h
    dsimp only at h
    split at h
    · cases h
    · next hnone =>
      cases h
      exact ⟨ok, s, rfl, hnone, rfl⟩

theorem parse_eq_ok {collapse : Bool} {p : Parse} (h : ctx.parse rule collapse = .ok p) :
    ∃ q, ctx.rawParse rule = .ok q ∧ p = q.finish ctx.source collapse := by
  unfold parse at h
  cases hraw : ctx.rawParse rule with
  | error e =>
    rw [hraw] at h
    cases h
  | ok q =>
    rw [hraw] at h
    cases h
    exact ⟨q, rfl, rfl⟩

theorem extends_of_rawParse (h : ctx.rawParse rule = .ok p) :
    ∃ s, p.tree = s.tree ∧ (RunState.start ctx rule).Extends Tree.root s := by
  obtain ⟨ok, s, hrun, -, htree⟩ := rawParse_eq_ok h
  have hext := extends_run ctx rule
  rw [hrun] at hext
  exact ⟨s, htree, hext⟩

theorem wellFormed_of_rawParse (h : ctx.rawParse rule = .ok p) : p.tree.WellFormed := by
  obtain ⟨s, htree, hext⟩ := extends_of_rawParse h
  exact htree ▸ hext.wellFormed

theorem unwalked_of_rawParse (h : ctx.rawParse rule = .ok p) : p.tree.Unwalked := by
  obtain ⟨s, htree, hext⟩ := extends_of_rawParse h
  exact htree ▸ hext.unwalked fun j => ⟨apply_node_start Node.consumed ctx rule rfl j,
    apply_node_start Node.consumedChildren ctx rule rfl j⟩

theorem origin_root_of_rawParse (h : ctx.rawParse rule = .ok p) :
    (Node.fresh rule none .plain (ctx.rules.rule? rule).isSome 0).SameOrigin
      (p.tree.node Tree.root) := by
  obtain ⟨s, htree, hext⟩ := extends_of_rawParse h
  exact htree ▸ hext.origin

end Context

end RankedGrammar
