import RankedGrammar.Diagnostic.ParseError
import RankedGrammar.Proofs.Diagnostic.Expectations
import RankedGrammar.Proofs.Diagnostic.Keyed

/-!
Merging as a join. What a set holds at each place is all that there is to it, and a merge holds at a
place what the first set has there and then what only the second has; so up to the order of the names
merging is commutative, associative and idempotent, with the empty set as its unit.
-/
namespace RankedGrammar

namespace Position

variable {p q r : Position}

theorem lt_iff : p < q ↔ p.line < q.line ∨ p.line = q.line ∧ p.column < q.column := Iff.rfl

instance : IsStrictTotalOrder Position (· < ·) where
  irrefl p h := by
    rw [lt_iff] at h
    omega
  trans p q r h h' := by
    rw [lt_iff] at *
    omega
  trichotomous _ _ h h' := eq_of_not_lt h h'

end Position

namespace Expectation

/-- The entries are in source order, one to a place, and none is without names or repeats one. -/
abbrev Ordered (xs : List Expectation) : Prop := Keyed.Sound position names List.Nodup xs

abbrev namesAt (place : Position) (xs : List Expectation) : List String :=
  Keyed.get position names place xs

variable {place : Position} {name : String} {a b : Expectation} {xs ys : List Expectation}

theorem namesAt_cons :
    namesAt place (a :: xs) = if a.position = place then a.names else namesAt place xs :=
  Keyed.get_cons

theorem merge_nil (xs : List Expectation) : merge xs [] = xs := by cases xs <;> rfl

theorem mergeInto_merge (a : Expectation) (xs bs : List Expectation) :
    a.mergeInto (merge xs) bs = merge (a :: xs) bs := by
  cases bs with
  | nil => rw [mergeInto, merge_nil, merge_nil]
  | cons b bs => rfl

/-- Of two lists the entry that lies first comes first, and two at one place are united. -/
theorem merge_cons_cons (a b : Expectation) (xs bs : List Expectation) :
    merge (a :: xs) (b :: bs) =
      if b.position < a.position then b :: merge (a :: xs) bs
      else if a.position < b.position then a :: merge xs (b :: bs)
      else a.union b :: merge xs bs := by
  rw [merge, mergeInto, mergeInto_merge]

theorem lt_of_mem_merge (hxs : ∀ x ∈ xs, place < x.position) (hys : ∀ y ∈ ys, place < y.position) :
    ∀ x ∈ merge xs ys, place < x.position :=
  forall_mem_merge (Q := fun x => place < x.position) (fun h _ => h) hxs hys

theorem nodup_append_filter {ms ns : List String} (hms : ms.Nodup) (hns : ns.Nodup) :
    (ms ++ ns.filter (· ∉ ms)).Nodup := by
  refine List.nodup_append.2 ⟨hms, hns.filter _, fun m hm n hn heq => ?_⟩
  have hnot := of_decide_eq_true (List.mem_filter.1 hn).2
  exact hnot (heq ▸ hm)

/-- A merge is ordered, and at each place it has what the first list has and then what only the
second has. -/
theorem ordered_merge (hxs : Ordered xs) (hys : Ordered ys) :
    Ordered (merge xs ys) ∧ ∀ place, namesAt place (merge xs ys) =
      namesAt place xs ++ (namesAt place ys).filter (· ∉ namesAt place xs) := by
  induction xs generalizing ys with
  | nil => exact ⟨hys, fun place => (List.filter_eq_self.2 (by simp [Keyed.get])).symm⟩
  | cons a xs ih =>
    obtain ⟨hbefore, hnames, hnodup, hrest⟩ := Keyed.sound_cons.1 hxs
    induction ys with
    | nil =>
      rw [merge_nil]
      exact ⟨hxs, fun place => (List.append_nil _).symm⟩
    | cons b ys ihys =>
      obtain ⟨hbefore', hnames', hnodup', hrest'⟩ := Keyed.sound_cons.1 hys
      rw [merge_cons_cons]
      split
      · next hlt =>
        obtain ⟨hordered, hmerged⟩ := ihys hrest'
        have hfirst : ∀ x ∈ a :: xs, b.position < x.position := List.forall_mem_cons.2
          ⟨hlt, fun x hx => trans_of (· < ·) hlt (hbefore x hx)⟩
        refine ⟨Keyed.sound_cons.2
          ⟨lt_of_mem_merge hfirst hbefore', hnames', hnodup', hordered⟩, fun place => ?_⟩
        rw [namesAt_cons (a := b), namesAt_cons (a := b)]
        split
        · next hp =>
          have hnone : namesAt place (a :: xs) = [] := Keyed.get_of_lt (hp ▸ hfirst)
          simp [hnone]
        · exact hmerged place
      · next hnot =>
        split
        · next hlt =>
          obtain ⟨hordered, hmerged⟩ := ih hrest hys
          have hfirst : ∀ y ∈ b :: ys, a.position < y.position := List.forall_mem_cons.2
            ⟨hlt, fun y hy => trans_of (· < ·) hlt (hbefore' y hy)⟩
          refine ⟨Keyed.sound_cons.2
            ⟨lt_of_mem_merge hbefore hfirst, hnames, hnodup, hordered⟩, fun place => ?_⟩
          rw [namesAt_cons (a := a), namesAt_cons (a := a)]
          split
          · next hp =>
            have hnone : namesAt place (b :: ys) = [] := Keyed.get_of_lt (hp ▸ hfirst)
            simp [hnone]
          · exact hmerged place
        · next hnot' =>
          have hsame : b.position = a.position := Position.eq_of_not_lt hnot hnot'
          obtain ⟨hordered, hmerged⟩ := ih hrest hrest'
          have hfull : (a.union b).names ≠ [] := List.append_ne_nil_of_left_ne_nil hnames _
          refine ⟨Keyed.sound_cons.2 ⟨lt_of_mem_merge hbefore (hsame ▸ hbefore'), hfull,
            nodup_append_filter hnodup hnodup', hordered⟩, fun place => ?_⟩
          have hplace : (a.union b).position = a.position := rfl
          rw [namesAt_cons, namesAt_cons, namesAt_cons, hplace, hsame]
          split
          · rfl
          · exact hmerged place

end Expectation

namespace Expectations

def Ordered (s : Expectations) : Prop := Expectation.Ordered s.entries

variable {r s t u : Expectations} {place : Position} {name : String}

theorem ordered_empty : empty.Ordered := Keyed.sound_nil

theorem ordered_single (place : Position) (name : String) : (single place name).Ordered :=
  Keyed.sound_cons.2 ⟨by simp, List.cons_ne_nil _ _, List.nodup_singleton name, Keyed.sound_nil⟩

theorem Ordered.merge (hs : s.Ordered) (ht : t.Ordered) : (s.merge t).Ordered :=
  (Expectation.ordered_merge hs ht).1

theorem Ordered.insert (hs : s.Ordered) (place : Position) (name : String) :
    (s.insert place name).Ordered := hs.merge (ordered_single place name)

theorem Ordered.namesAt_merge (hs : s.Ordered) (ht : t.Ordered) (place : Position) :
    (s.merge t).namesAt place =
      s.namesAt place ++ (t.namesAt place).filter (· ∉ s.namesAt place) :=
  (Expectation.ordered_merge hs ht).2 place

theorem Ordered.namesAt_of_mem (hs : s.Ordered) {x : Expectation} (hx : x ∈ s.entries) :
    s.namesAt x.position = x.names := Keyed.Sound.get_of_mem hs hx

theorem Ordered.nodup_namesAt (hs : s.Ordered) (place : Position) : (s.namesAt place).Nodup :=
  Keyed.Sound.get_kind hs List.nodup_nil place

theorem namesAt_single (place place' : Position) (name : String) :
    (single place name).namesAt place' = if place = place' then [name] else [] := by
  by_cases hp : place = place'
  · simp [single, namesAt, hp]
  · simp [single, namesAt, hp]

/-- Sets have the same names just if they have the same names at every place. -/
theorem Ordered.sameNames_iff (hs : s.Ordered) (ht : t.Ordered) : s.sameNames t ↔
    ∀ place, s.namesAt place ⊆ t.namesAt place ∧ t.namesAt place ⊆ s.namesAt place := by
  unfold sameNames
  rw [Keyed.isEqv_iff_forall₂]
  simp only [decide_eq_true_eq]
  exact Keyed.forall₂_iff_get (Q := fun ms ns : List String => ms ⊆ ns ∧ ns ⊆ ms)
    ⟨List.Subset.refl _, List.Subset.refl _⟩ (fun h => List.subset_nil.1 h.1)
    (fun h => List.subset_nil.1 h.2) hs ht

theorem Ordered.sameNames_iff_mem (hs : s.Ordered) (ht : t.Ordered) : s.sameNames t ↔
    ∀ place name, name ∈ s.namesAt place ↔ name ∈ t.namesAt place := by
  rw [hs.sameNames_iff ht]
  exact forall_congr' fun place => ⟨fun h name => ⟨(h.1 ·), (h.2 ·)⟩,
    fun h => ⟨fun name => (h name).1, fun name => (h name).2⟩⟩

theorem Ordered.sameNames_refl (hs : s.Ordered) : s.sameNames s :=
  (hs.sameNames_iff_mem hs).2 fun _ _ => Iff.rfl

theorem Ordered.mem_namesAt_merge (hs : s.Ordered) (ht : t.Ordered) :
    name ∈ (s.merge t).namesAt place ↔ name ∈ s.namesAt place ∨ name ∈ t.namesAt place := by
  rw [hs.namesAt_merge ht]
  by_cases hmem : name ∈ s.namesAt place
  · simp [hmem]
  · simp [hmem]

/-- There is no more to a set than the names at every place, in their order. -/
theorem Ordered.ext (hs : s.Ordered) (ht : t.Ordered)
    (h : ∀ place, s.namesAt place = t.namesAt place) : s = t := by
  have hentries := Keyed.forall₂_of_get (Q := Eq) rfl (fun h => h) (fun h => h.symm) hs ht h
  have hsame : List.Forall₂ Eq s.entries t.entries := by
    refine hentries.imp fun a b hab => ?_
    rw [Expectation.mk.injEq]
    exact hab
  rw [List.forall₂_eq_eq_eq] at hsame
  rw [Expectations.mk.injEq]
  exact hsame

/-- Sets may be merged in any nesting, with the same names in the same order. -/
theorem Ordered.merge_merge (hr : r.Ordered) (hs : s.Ordered) (ht : t.Ordered) :
    (r.merge s).merge t = r.merge (s.merge t) := by
  refine ((hr.merge hs).merge ht).ext (hr.merge (hs.merge ht)) fun place => ?_
  rw [(hr.merge hs).namesAt_merge ht, hr.namesAt_merge hs, hr.namesAt_merge (hs.merge ht),
    hs.namesAt_merge ht, List.filter_append, List.filter_filter, List.append_assoc]
  -- what neither of the first two sets has is what the second lacks, and the first as well
  congr 2
  refine List.filter_congr fun name _ => ?_
  by_cases hname : name ∈ r.namesAt place
  · simp [hname]
  · simp [hname]

theorem Ordered.merge_comm (hs : s.Ordered) (ht : t.Ordered) :
    (s.merge t).sameNames (t.merge s) := by
  rw [(hs.merge ht).sameNames_iff_mem (ht.merge hs)]
  intro place name
  rw [hs.mem_namesAt_merge ht, ht.mem_namesAt_merge hs, or_comm]

theorem Ordered.merge_assoc (hr : r.Ordered) (hs : s.Ordered) (ht : t.Ordered) :
    ((r.merge s).merge t).sameNames (r.merge (s.merge t)) := by
  rw [hr.merge_merge hs ht]
  exact (hr.merge (hs.merge ht)).sameNames_refl

theorem Ordered.merge_self (hs : s.Ordered) : (s.merge s).sameNames s := by
  rw [(hs.merge hs).sameNames_iff_mem hs]
  intro place name
  rw [hs.mem_namesAt_merge hs, or_self]

theorem merge_empty (s : Expectations) : s.merge empty = s := by
  rw [merge, empty, Expectation.merge_nil]

theorem empty_merge (s : Expectations) : empty.merge s = s := rfl

theorem insert_eq_merge (s : Expectations) (place : Position) (name : String) :
    s.insert place name = s.merge (empty.insert place name) := rfl

theorem Ordered.sameNames_symm (hs : s.Ordered) (ht : t.Ordered) (h : s.sameNames t) :
    t.sameNames s :=
  (ht.sameNames_iff_mem hs).2 fun place name => ((hs.sameNames_iff_mem ht).1 h place name).symm

theorem Ordered.sameNames_trans (hr : r.Ordered) (hs : s.Ordered) (ht : t.Ordered)
    (h : r.sameNames s) (h' : s.sameNames t) : r.sameNames t :=
  (hr.sameNames_iff_mem ht).2 fun place name =>
    ((hr.sameNames_iff_mem hs).1 h place name).trans ((hs.sameNames_iff_mem ht).1 h' place name)

/-- Merging cannot tell sets apart that have the same names. -/
theorem Ordered.sameNames_merge (hr : r.Ordered) (hs : s.Ordered) (ht : t.Ordered) (hu : u.Ordered)
    (h : r.sameNames s) (h' : t.sameNames u) : (r.merge t).sameNames (s.merge u) := by
  rw [(hr.merge ht).sameNames_iff_mem (hs.merge hu)]
  intro place name
  rw [hr.mem_namesAt_merge ht, hs.mem_namesAt_merge hu, (hr.sameNames_iff_mem hs).1 h,
    (ht.sameNames_iff_mem hu).1 h']

/-- A set without entries, one without a furthest entry and one without a report are one thing. -/
theorem isEmpty_iff : s.isEmpty ↔ s.entries = [] := List.isEmpty_iff

theorem furthest?_eq_none : s.furthest? = none ↔ s.entries = [] := List.getLast?_eq_none_iff

theorem parseError?_eq_none : s.parseError? = none ↔ s.entries = [] := by
  rw [parseError?, Option.map_eq_none_iff, furthest?_eq_none]

end Expectations

end RankedGrammar
