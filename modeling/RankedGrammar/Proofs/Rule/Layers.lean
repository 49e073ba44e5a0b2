import Mathlib.Data.Finset.Card
import RankedGrammar.Proofs.Rule.Index

/-!
Rulebooks by their history, and the layers of an index. Whatever was put into a rulebook in whatever
order, it lists each name where that was first put in and holds the rule that was put in last; and
of three rulebooks the highest one that has a name decides, in every way of asking for it.
-/
namespace RankedGrammar

variable {γ : Type}

namespace Rulebook

/-- The rule listed last under a name. -/
def lastListed? (name : String) (rules : List (String × γ)) : Option γ :=
  ((rules.filter (·.1 = name)).getLast?).map (·.2)

variable {b : Rulebook γ} {name other : String} {rule : γ} {rules : List (String × γ)}

theorem lastListed?_concat : lastListed? other (rules ++ [(name, rule)]) =
    if name = other then some rule else lastListed? other rules := by
  unfold lastListed?
  rw [List.filter_append]
  by_cases hname : name = other
  · simp [hname]
  · simp [hname]

theorem entries_insert_of_mem (h : name ∈ b.names) : (b.insert name rule).entries =
    b.entries.map fun e => if e.1 = name then (name, rule) else e := by
  unfold insert
  rw [if_pos (contains_iff.2 h)]

theorem name_put (e : String × γ) : (if e.1 = name then (name, rule) else e).1 = e.1 := by
  split
  · next heq => exact heq.symm
  · rfl

theorem names_insert :
    (b.insert name rule).names = if name ∈ b.names then b.names else b.names ++ [name] := by
  split
  · next hmem =>
    rw [names, entries_insert_of_mem hmem, List.map_map]
    exact List.map_congr_left fun e _ => name_put e
  · next hnew =>
    rw [names, entries_insert hnew, List.map_append]
    rfl

theorem get?_eq_none (h : name ∉ b.names) : b.get? name = none := by
  have hnot : ¬ b.contains name := mt contains_iff.1 h
  rwa [contains, Option.not_isSome_iff_eq_none] at hnot

theorem get?_insert :
    (b.insert name rule).get? other = if name = other then some rule else b.get? other := by
  by_cases hmem : name ∈ b.names
  · have hnames : ((fun e : String × γ => decide (e.1 = other)) ∘
        fun e => if e.1 = name then (name, rule) else e) = fun e => decide (e.1 = other) :=
      funext fun e => congrArg (fun n : String => decide (n = other)) (name_put e)
    have hsome := contains_iff.2 hmem
    unfold contains at hsome
    unfold get? at hsome ⊢
    rw [entries_insert_of_mem hmem, List.find?_map, hnames]
    split
    · next heq =>
      subst heq
      rw [Option.isSome_map] at hsome
      obtain ⟨e, he⟩ := Option.isSome_iff_exists.1 hsome
      have hname : e.1 = name := by simpa using List.find?_some he
      rw [he, Option.map_some, Option.map_some, if_pos hname]
    · next hne =>
      cases he : b.entries.find? (·.1 = other) with
      | none => rfl
      | some e =>
        have hname : e.1 = other := by simpa using List.find?_some he
        rw [Option.map_some, Option.map_some, if_neg (hname ▸ Ne.symm hne), Option.map_some]
  · have hnone := get?_eq_none hmem
    unfold get? at hnone ⊢
    rw [entries_insert hmem, List.find?_append]
    by_cases heq : name = other
    · subst heq
      rw [Option.map_eq_none_iff] at hnone
      simp [hnone]
    · simp [heq]

theorem names_nodup_insert (h : b.names.Nodup) : (b.insert name rule).names.Nodup := by
  rw [names_insert]
  split
  · exact h
  · next hnew =>
    rw [← List.concat_eq_append, List.nodup_concat]
    exact ⟨hnew, h⟩

/-- Rules put in one by one: a name stands where it was first put in. -/
theorem names_foldl_insert {ns : List String} (h : b.names = ns.eraseDups) :
    (rules.foldl (fun b e => b.insert e.1 e.2) b).names =
      (ns ++ rules.map (·.1)).eraseDups := by
  induction rules generalizing b ns with
  | nil => rw [List.map_nil, List.append_nil]; exact h
  | cons r rules ih =>
    have hnames : (b.insert r.1 r.2).names = (ns ++ [r.1]).eraseDups := by
      rw [names_insert, h, eraseDups_concat]
    rw [List.foldl_cons, ih hnames, List.map_cons, List.append_assoc]
    rfl

theorem get?_foldl_insert : (rules.foldl (fun b e => b.insert e.1 e.2) b).get? name =
    (lastListed? name rules).or (b.get? name) := by
  induction rules using List.reverseRecOn with
  | nil => rfl
  | append_singleton rules r ih =>
    rw [List.foldl_append, List.foldl_cons, List.foldl_nil, get?_insert, ih, lastListed?_concat]
    split <;> rfl

theorem names_nodup_foldl_insert (h : b.names.Nodup) :
    (rules.foldl (fun b e => b.insert e.1 e.2) b).names.Nodup := by
  induction rules generalizing b with
  | nil => exact h
  | cons r rules ih => exact ih (names_nodup_insert h)

theorem mem_names_insert : other ∈ (b.insert name rule).names ↔ other ∈ b.names ∨ other = name := by
  rw [names_insert]
  split
  · next hmem => exact ⟨.inl, fun h => h.elim id (· ▸ hmem)⟩
  · rw [List.mem_append, List.mem_singleton]

theorem mem_names_foldl_insert : other ∈ (rules.foldl (fun b e => b.insert e.1 e.2) b).names ↔
    other ∈ b.names ∨ other ∈ rules.map (·.1) := by
  induction rules generalizing b with
  | nil => simp
  | cons r rules ih =>
    rw [List.foldl_cons, ih, mem_names_insert, List.map_cons, List.mem_cons, or_assoc]

/-- Under distinct names the rule listed last is the only one. -/
theorem lastListed?_entries (h : b.names.Nodup) : lastListed? name b.entries = b.get? name := by
  have hsame : ofList b.entries = b := congrArg Rulebook.mk (entries_ofList h)
  have hget : (ofList b.entries).get? name = (lastListed? name b.entries).or none :=
    get?_foldl_insert
  rw [hsame, Option.or_none] at hget
  exact hget.symm

/-- How a rulebook comes to be. -/
inductive History (γ : Type) where
  | empty
  | ofList (rules : List (String × γ))
  | insert (past : History γ) (name : String) (rule : γ)

namespace History

def book : History γ → Rulebook γ
  | empty => .empty
  | ofList rules => .ofList rules
  | insert past name rule => past.book.insert name rule

/-- Everything that was put in, in order. -/
def listed : History γ → List (String × γ)
  | empty => []
  | ofList rules => rules
  | insert past name rule => past.listed ++ [(name, rule)]

theorem names_book (h : History γ) : h.book.names = (h.listed.map (·.1)).eraseDups := by
  induction h with
  | empty => rfl
  | ofList rules =>
    have hempty : (Rulebook.empty : Rulebook γ).names = ([] : List String).eraseDups := rfl
    exact names_foldl_insert hempty
  | insert past name rule ih =>
    rw [book, names_insert, ih, listed, List.map_append]
    exact (eraseDups_concat _ _).symm

theorem names_nodup_book (h : History γ) : h.book.names.Nodup := by
  induction h with
  | empty => exact .nil
  | ofList rules => exact names_nodup_foldl_insert .nil
  | insert past name rule ih => exact names_nodup_insert ih

theorem get?_book (h : History γ) (name : String) :
    h.book.get? name = lastListed? name h.listed := by
  induction h with
  | empty => rfl
  | ofList rules => exact get?_foldl_insert.trans (Option.or_none)
  | insert past other rule ih => rw [book, get?_insert, ih, listed, lastListed?_concat]

end History

end Rulebook

namespace RuleIndex

open Rulebook (lastListed?)

variable {x : RuleIndex γ} {layer : Layer} {rules : Rulebook γ}

/-- The rule that the first layer with the name has for it, and that layer. -/
def highest? (layers : List (Layer × Rulebook γ)) (name : String) : Option (Resolution γ) :=
  layers.findSome? fun l => (l.2.get? name).map (⟨·, l.1⟩)

/-- A layer decides on the names that it has. -/
theorem resolution?_overlay (hrules : rules.names.Nodup) (name : String) :
    (x.overlay layer rules).resolution? name =
      ((rules.get? name).map (⟨·, layer⟩)).or (x.resolution? name) := by
  have hlast : lastListed? name (rules.entries.map fun e => (e.1, (⟨e.2, layer⟩ : Resolution γ))) =
      (lastListed? name rules.entries).map (⟨·, layer⟩) := by
    unfold lastListed?
    rw [List.filter_map, List.getLast?_map, Option.map_map, Option.map_map]
    rfl
  rw [resolution?, entries_overlay, Rulebook.get?_foldl_insert, hlast,
    Rulebook.lastListed?_entries hrules]
  rfl

theorem resolution?_merge {overrides primitives parsers : Rulebook γ}
    (hoverrides : overrides.names.Nodup) (hprimitives : primitives.names.Nodup)
    (hparsers : parsers.names.Nodup) (name : String) :
    (merge overrides primitives parsers).resolution? name =
      highest? [(.override, overrides), (.primitive, primitives), (.parser, parsers)] name := by
  unfold merge
  rw [resolution?_overlay hoverrides, resolution?_overlay hprimitives, resolution?_overlay hparsers]
  unfold highest?
  rw [List.findSome?_cons, List.findSome?_cons, List.findSome?_cons, List.findSome?_nil]
  -- layer by layer from the highest down: the first that has the name ends the search
  cases overrides.get? name with
  | some rule => rfl
  | none =>
    cases primitives.get? name with
    | some rule => rfl
    | none => cases parsers.get? name <;> rfl

theorem registeredName?_eq (x : RuleIndex γ) (name : String) :
    x.registeredName? name = (x.resolution? name).map fun _ => name := by
  unfold registeredName? resolution? Rulebook.get? Rulebook.names
  rw [List.find?_map]
  show Option.map _ (x.entries.entries.find? (·.1 = name)) = _
  cases he : x.entries.entries.find? (·.1 = name) with
  | none => rfl
  | some e =>
    have hname : e.1 = name := by simpa using List.find?_some he
    rw [Option.map_some, Option.map_some, Option.map_some, hname]

theorem resolve_eq (x : RuleIndex γ) (name : String) :
    x.resolve name = (x.resolution? name).elim (.error ⟨name⟩) (.ok ·.rule) := by
  unfold resolve rule?
  cases x.resolution? name <;> rfl

theorem toFinset_names_overlay : (x.overlay layer rules).entries.names.toFinset =
    x.entries.names.toFinset ∪ rules.names.toFinset := by
  ext name
  rw [Finset.mem_union, List.mem_toFinset, List.mem_toFinset, List.mem_toFinset, entries_overlay,
    Rulebook.mem_names_foldl_insert, List.map_map]
  rfl

theorem names_nodup_merge (overrides primitives parsers : Rulebook γ) :
    (merge overrides primitives parsers).entries.names.Nodup := by
  have hstep : ∀ (x : RuleIndex γ) layer rules, x.entries.names.Nodup →
      (x.overlay layer rules).entries.names.Nodup := by
    intro x layer rules h
    rw [entries_overlay]
    exact Rulebook.names_nodup_foldl_insert h
  exact hstep _ _ _ (hstep _ _ _ (hstep _ _ _ .nil))

theorem size_merge (overrides primitives parsers : Rulebook γ) :
    (merge overrides primitives parsers).size =
      (overrides.names.toFinset ∪ primitives.names.toFinset ∪ parsers.names.toFinset).card := by
  have hnames : (merge overrides primitives parsers).entries.names.toFinset =
      overrides.names.toFinset ∪ primitives.names.toFinset ∪ parsers.names.toFinset := by
    unfold merge
    rw [toFinset_names_overlay, toFinset_names_overlay, toFinset_names_overlay,
      Finset.union_comm, Finset.union_comm _ primitives.names.toFinset, Finset.union_assoc]
    rfl
  have hlength : (merge overrides primitives parsers).size =
      (merge overrides primitives parsers).entries.names.length := (List.length_map _).symm
  rw [hlength, ← hnames, List.toFinset_card_of_nodup (names_nodup_merge _ _ _)]

/-- Whatever the history of three rulebooks, each lists its names where they were first put in and
holds the rules that were put in last, which are those that further insertions replace; and of the
index made of them every question about a name is answered by the highest layer that has the name,
so that it has as many names as there are in any of them. -/
theorem merge_resolves (overrides primitives parsers : Rulebook.History γ) :
    (∀ h : Rulebook.History γ, h.book.names = (h.listed.map (·.1)).eraseDups ∧
      ∀ name, h.book.get? name = lastListed? name h.listed ∧
        ∀ rule, h.book.replace name rule =
          (lastListed? name h.listed, (h.insert name rule).book)) ∧
    let x := merge overrides.book primitives.book parsers.book
    (∀ name,
      let found := highest? [(.override, overrides.book), (.primitive, primitives.book),
        (.parser, parsers.book)] name
      x.resolution? name = found ∧ x.rule? name = found.map (·.rule) ∧
        x.layer? name = found.map (·.layer) ∧ x.registeredName? name = found.map (fun _ => name) ∧
        x.resolve name = found.elim (.error ⟨name⟩) (.ok ·.rule)) ∧
    x.size = (overrides.book.names.toFinset ∪ primitives.book.names.toFinset ∪
      parsers.book.names.toFinset).card := by
  refine ⟨fun h => ⟨h.names_book, fun name => ⟨h.get?_book name, fun rule => ?_⟩⟩, fun name => ?_,
    size_merge _ _ _⟩
  · rw [Rulebook.replace, h.get?_book]
    rfl
  · have hfound := resolution?_merge overrides.names_nodup_book primitives.names_nodup_book
      parsers.names_nodup_book name
    dsimp only
    rw [rule?, layer?, registeredName?_eq, resolve_eq, hfound]
    exact ⟨rfl, rfl, rfl, rfl, rfl⟩

end RuleIndex

end RankedGrammar
