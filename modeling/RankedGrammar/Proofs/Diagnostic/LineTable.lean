import Mathlib.Order.Nat
import Mathlib.Data.List.Induction
import Mathlib.Data.List.Perm.Subperm
import RankedGrammar.Proofs.Diagnostic.Semilattice

/-!
Expectations kept line by line, and in each line column by column. No line is left without columns
and no column without names, so such a table is empty just if it lists nothing, and its last entry
stands in its last line.
-/
namespace RankedGrammar

abbrev Rows (γ : Type) := List (Nat × List γ)

namespace Rows

variable {γ : Type} {P : List γ → Prop} {rows other : Rows γ} {f : List γ → List γ}
  {combine : List γ → List γ → List γ} {j k : Nat}

abbrev under (k : Nat) (rows : Rows γ) : List γ := Keyed.get Prod.fst Prod.snd k rows

abbrev Sound (P : List γ → Prop) (rows : Rows γ) : Prop := Keyed.Sound Prod.fst Prod.snd P rows

/-- Changes what stands under a number, with an empty row there at first if there is none. -/
def update (k : Nat) (f : List γ → List γ) : Rows γ → Rows γ
  | [] => [(k, f [])]
  | (j, cs) :: rest =>
    if j < k then (j, cs) :: update k f rest
    else if k < j then (k, f []) :: (j, cs) :: rest
    else (j, f cs) :: rest

/-- Combines what stands under the numbers of `other` with it, row by row. -/
def mergeWith (combine : List γ → List γ → List γ) (rows other : Rows γ) : Rows γ :=
  other.foldl (fun rows row => rows.update row.1 (combine · row.2)) rows

theorem lt_of_mem_update (hk : j < k) (hrows : ∀ row ∈ rows, j < row.1) :
    ∀ row ∈ rows.update k f, j < row.1 := by
  induction rows with
  | nil => exact List.forall_mem_singleton.2 hk
  | cons row rest ih =>
    obtain ⟨hrow, hrest⟩ := List.forall_mem_cons.1 hrows
    rw [update]
    split
    · exact List.forall_mem_cons.2 ⟨hrow, ih hrest⟩
    · split
      · exact List.forall_mem_cons.2 ⟨hk, hrows⟩
      · exact List.forall_mem_cons.2 ⟨hrow, hrest⟩

theorem update_full (rows : Rows γ) (k : Nat) (f : List γ → List γ) : rows.update k f ≠ [] := by
  cases rows with
  | nil => exact List.cons_ne_nil _ _
  | cons row rest =>
    rw [update]
    split
    · exact List.cons_ne_nil _ _
    · split <;> exact List.cons_ne_nil _ _

theorem under_cons {i : Nat} {cs : List γ} :
    Rows.under j ((i, cs) :: rows) = if i = j then cs else rows.under j := Keyed.get_cons

theorem sound_update (hnil : P []) (hf : ∀ cs, P cs → f cs ≠ [] ∧ P (f cs)) (h : rows.Sound P)
    (k : Nat) : (rows.update k f).Sound P := by
  obtain ⟨hfull, hP⟩ := hf [] hnil
  induction rows with
  | nil => exact Keyed.sound_cons.2 ⟨by simp, hfull, hP, Keyed.sound_nil⟩
  | cons row rest ih =>
    obtain ⟨hlt, hrow, hrowP, hrest⟩ := Keyed.sound_cons.1 h
    rw [update]
    split
    · next hlow => exact Keyed.sound_cons.2 ⟨lt_of_mem_update hlow hlt, hrow, hrowP, ih hrest⟩
    · split
      · next hhigh =>
        exact Keyed.sound_cons.2 ⟨List.forall_mem_cons.2 ⟨hhigh, fun x hx =>
          Nat.lt_trans hhigh (hlt x hx)⟩, hfull, hP, h⟩
      · exact Keyed.sound_cons.2 ⟨hlt, (hf _ hrowP).1, (hf _ hrowP).2, hrest⟩

theorem under_update (h : rows.Sound P) (j : Nat) :
    (rows.update k f).under j = if j = k then f (rows.under k) else rows.under j := by
  induction rows with
  | nil => simp [update, under_cons, Keyed.get, eq_comm]
  | cons row rest ih =>
    obtain ⟨i, cs⟩ := row
    obtain ⟨hlt, -, -, hrest⟩ := Keyed.sound_cons.1 h
    rw [update]
    split
    · next hlow =>
      rw [under_cons, under_cons, under_cons, if_neg (Nat.ne_of_lt hlow), ih hrest]
      by_cases hij : i = j
      · rw [if_pos hij, if_neg (hij ▸ Nat.ne_of_lt hlow), if_pos hij]
      · rw [if_neg hij, if_neg hij]
    · split
      · next hhigh =>
        have hnone : Rows.under k ((i, cs) :: rest) = [] := Keyed.get_of_lt
          (List.forall_mem_cons.2 ⟨hhigh, fun x hx => Nat.lt_trans hhigh (hlt x hx)⟩)
        rw [under_cons, hnone]
        exact if_congr eq_comm rfl rfl
      · obtain rfl : i = k := by omega
        rw [under_cons, under_cons, under_cons, if_pos rfl]
        by_cases hij : i = j
        · rw [if_pos hij, if_pos hij.symm]
        · rw [if_neg hij, if_neg (Ne.symm hij), if_neg hij]

/-- A merge has under each number what the two tables have there, combined. -/
theorem sound_mergeWith (combine : List γ → List γ → List γ) (hnil : P [])
    (hcombine : ∀ cs ds, P cs → P ds → ds ≠ [] → combine cs ds ≠ [] ∧ P (combine cs ds))
    (hunit : ∀ cs, combine cs [] = cs) (hrows : rows.Sound P) (hother : other.Sound P) :
    (rows.mergeWith combine other).Sound P ∧
      ∀ k, (rows.mergeWith combine other).under k = combine (rows.under k) (other.under k) := by
  induction other generalizing rows with
  | nil => exact ⟨hrows, fun k => (hunit _).symm⟩
  | cons row rest ih =>
    obtain ⟨i, ds⟩ := row
    obtain ⟨hlt, hfull, hP, hrest⟩ := Keyed.sound_cons.1 hother
    have hsound := sound_update hnil (fun cs hcs => hcombine cs ds hcs hP hfull) hrows i
    obtain ⟨hmerged, hgets⟩ := ih hsound hrest
    refine ⟨hmerged, fun k => (hgets k).trans ?_⟩
    rw [under_update hrows, under_cons]
    by_cases hk : i = k
    · subst hk
      have hnone : Rows.under i rest = [] := Keyed.get_of_lt hlt
      rw [if_pos rfl, if_pos rfl, hnone, hunit]
    · rw [if_neg (Ne.symm hk), if_neg hk]

end Rows

/-- Expectations by line and then by column. -/
structure LineTable where
  lines : Rows (Nat × List String)

namespace LineTable

def empty : LineTable := ⟨[]⟩

/-- Adds a name at the end unless it is there already. -/
def addName (names : List String) (name : String) : List String :=
  if name ∈ names then names else names ++ [name]

def addNames (names more : List String) : List String := more.foldl addName names

def insert (t : LineTable) (place : Position) (name : String) : LineTable :=
  ⟨t.lines.update place.line (Rows.update place.column (addName · name))⟩

def merge (s t : LineTable) : LineTable :=
  ⟨s.lines.mergeWith (Rows.mergeWith addNames) t.lines⟩

def isEmpty (t : LineTable) : Bool := t.lines.isEmpty

def namesAt (t : LineTable) (line column : Nat) : List String :=
  Rows.under column (Rows.under line t.lines)

def entries (t : LineTable) : List Expectation :=
  t.lines.flatMap fun row => row.2.map fun cell => ⟨⟨row.1, cell.1⟩, cell.2⟩

def furthest? (t : LineTable) : Option Expectation :=
  t.lines.getLast?.bind fun row => row.2.getLast?.map fun cell => ⟨⟨row.1, cell.1⟩, cell.2⟩

/-- As many names, and all of them there. -/
def eqNames (ms ns : List String) : Bool := ms.length == ns.length && ms.all (· ∈ ns)

/-- The same lines, in them the same columns, and there the same names. -/
def same (s t : LineTable) : Bool :=
  s.lines.isEqv t.lines fun a b => a.1 == b.1 &&
    a.2.isEqv b.2 fun c d => c.1 == d.1 && eqNames c.2 d.2

/-- No line is without columns, no column without names, and no name is repeated. -/
abbrev Sound (t : LineTable) : Prop := Rows.Sound (Rows.Sound List.Nodup) t.lines

variable {s t : LineTable} {place : Position} {name : String} {names more : List String}

theorem addName_full (names : List String) (name : String) : addName names name ≠ [] := by
  unfold addName
  split
  · next hmem => exact List.ne_nil_of_mem hmem
  · exact List.append_ne_nil_of_right_ne_nil _ (List.cons_ne_nil _ _)

theorem addName_eq_filter (names : List String) (name : String) :
    addName names name = names ++ [name].filter (· ∉ names) := by
  unfold addName
  split
  · next hmem => simp [hmem]
  · next hnot => simp [hnot]

/-- Different names are added in their order, those left out that are there already. -/
theorem addNames_eq_filter (hmore : more.Nodup) (names : List String) :
    addNames names more = names ++ more.filter (· ∉ names) := by
  unfold addNames
  induction more generalizing names with
  | nil => simp
  | cons name more ih =>
    obtain ⟨hnot, hmore⟩ := List.nodup_cons.1 hmore
    have hrest : ∀ n ∈ more, decide (n ∉ names ++ [name].filter (· ∉ names)) = decide (n ∉ names) := by
      intro n hn
      have hne : n ≠ name := fun heq => hnot (heq ▸ hn)
      simp [hne]
    rw [List.foldl_cons, ih hmore, addName_eq_filter, List.filter_congr hrest, List.append_assoc,
      ← List.filter_append, List.singleton_append]

theorem eq_nil_of_eqNames_nil (h : eqNames names []) : names = [] := by
  cases names with
  | nil => rfl
  | cons name names => simp [eqNames] at h

theorem eq_nil_of_nil_eqNames (h : eqNames [] names) : names = [] := by
  cases names with
  | nil => rfl
  | cons name names => simp [eqNames] at h

theorem eqNames_iff (hms : names.Nodup) (hns : more.Nodup) :
    eqNames names more ↔ names ⊆ more ∧ more ⊆ names := by
  have hall : names.all (· ∈ more) ↔ names ⊆ more := by simp [List.subset_def]
  unfold eqNames
  rw [Bool.and_eq_true, hall, beq_iff_eq]
  constructor
  · rintro ⟨hlength, hsub⟩
    exact ⟨hsub, ((List.subperm_of_subset hms hsub).perm_of_length_le hlength.ge).symm.subset⟩
  · rintro ⟨hsub, hsub'⟩
    exact ⟨Nat.le_antisymm (List.subperm_of_subset hms hsub).length_le
      (List.subperm_of_subset hns hsub').length_le, hsub⟩

theorem nodup_addName (h : names.Nodup) (name : String) : (addName names name).Nodup := by
  rw [addName_eq_filter]
  exact Expectation.nodup_append_filter h (List.nodup_singleton name)

theorem nodup_addNames (h : names.Nodup) (hmore : more.Nodup) : (addNames names more).Nodup := by
  rw [addNames_eq_filter hmore]
  exact Expectation.nodup_append_filter h hmore

theorem addNames_full (hmore : more.Nodup) (hfull : more ≠ []) (names : List String) :
    addNames names more ≠ [] := by
  obtain ⟨name, hname⟩ := List.exists_mem_of_ne_nil more hfull
  rw [addNames_eq_filter hmore]
  by_cases hmem : name ∈ names
  · exact List.append_ne_nil_of_left_ne_nil (List.ne_nil_of_mem hmem) _
  · exact List.append_ne_nil_of_right_ne_nil _
      (List.ne_nil_of_mem (List.mem_filter.2 ⟨hname, decide_eq_true hmem⟩))

theorem sound_empty : empty.Sound := Keyed.sound_nil

/-- An insertion shows at its place only, where the name comes last unless it is there already. -/
theorem Sound.insert (h : t.Sound) (place : Position) (name : String) :
    (t.insert place name).Sound ∧ ∀ line column, (t.insert place name).namesAt line column =
      if line = place.line ∧ column = place.column then addName (t.namesAt line column) name
      else t.namesAt line column := by
  have hcolumns : ∀ cells : Rows String, cells.Sound List.Nodup →
      (cells.update place.column (addName · name)).Sound List.Nodup ∧
        ∀ column, Rows.under column (cells.update place.column (addName · name)) =
          if column = place.column then addName (Rows.under place.column cells) name
          else Rows.under column cells :=
    fun cells hcells => ⟨Rows.sound_update List.nodup_nil (fun names hnames =>
      ⟨addName_full names name, nodup_addName hnames name⟩) hcells _, Rows.under_update hcells⟩
  refine ⟨Rows.sound_update Keyed.sound_nil (fun cells hcells =>
    ⟨Rows.update_full cells _ _, (hcolumns cells hcells).1⟩) h _, fun line column => ?_⟩
  unfold namesAt LineTable.insert
  rw [Rows.under_update h]
  by_cases hline : line = place.line
  · subst hline
    rw [if_pos rfl, (hcolumns _ (Keyed.Sound.get_kind h Keyed.sound_nil _)).2]
    by_cases hcolumn : column = place.column
    · rw [if_pos hcolumn, if_pos ⟨rfl, hcolumn⟩, hcolumn]
    · rw [if_neg hcolumn, if_neg fun hboth => hcolumn hboth.2]
  · rw [if_neg hline, if_neg fun hboth => hline hboth.1]

/-- A merge adds at each place the names that the other table has there. -/
theorem Sound.merge (hs : s.Sound) (ht : t.Sound) :
    (s.merge t).Sound ∧ ∀ line column, (s.merge t).namesAt line column =
      addNames (s.namesAt line column) (t.namesAt line column) := by
  have hcolumns : ∀ cells others : Rows String, cells.Sound List.Nodup → others.Sound List.Nodup →
      (cells.mergeWith addNames others).Sound List.Nodup ∧
        ∀ column, Rows.under column (cells.mergeWith addNames others) =
          addNames (Rows.under column cells) (Rows.under column others) :=
    fun cells others => Rows.sound_mergeWith addNames List.nodup_nil
      (fun names more hnames hmore hfull =>
        ⟨addNames_full hmore hfull names, nodup_addNames hnames hmore⟩) fun _ => rfl
  have hfull : ∀ cells others : Rows String, cells.Sound List.Nodup → others.Sound List.Nodup →
      others ≠ [] → cells.mergeWith addNames others ≠ [] := by
    intro cells others hcells hothers hne hnil
    obtain ⟨cell, rest, rfl⟩ := List.exists_cons_of_ne_nil hne
    obtain ⟨-, hcell, hnodup, -⟩ := Keyed.sound_cons.1 hothers
    have hunder := (hcolumns cells _ hcells hothers).2 cell.1
    rw [hnil, Rows.under, Rows.under, Rows.under, Keyed.get_self] at hunder
    exact addNames_full hnodup hcell _ hunder.symm
  obtain ⟨hsound, hunder⟩ := Rows.sound_mergeWith (Rows.mergeWith addNames)
    Keyed.sound_nil (fun cells others hcells hothers hne =>
      ⟨hfull cells others hcells hothers hne, (hcolumns cells others hcells hothers).1⟩)
    (fun _ => rfl) hs ht
  refine ⟨hsound, fun line column => ?_⟩
  unfold namesAt LineTable.merge
  rw [hunder]
  exact (hcolumns _ _ (Keyed.Sound.get_kind hs Keyed.sound_nil line)
    (Keyed.Sound.get_kind ht Keyed.sound_nil line)).2 column

theorem mem_entries {x : Expectation} : x ∈ t.entries ↔
    ∃ row ∈ t.lines, ∃ cell ∈ row.2, x = ⟨⟨row.1, cell.1⟩, cell.2⟩ := by
  simp [entries, eq_comm]

/-- The lines in turn list their columns in turn, so the entries are in source order. -/
theorem Sound.ordered_entries (h : t.Sound) : Expectation.Ordered t.entries := by
  refine ⟨?_, ?_, ?_⟩
  · refine List.pairwise_flatMap.2 ⟨fun row hrow => List.pairwise_map.2 ?_, ?_⟩
    · exact (h.kind row hrow).increasing.imp fun hlt => .inr ⟨rfl, hlt⟩
    · refine h.increasing.imp fun hlt x hx y hy => ?_
      obtain ⟨cell, -, rfl⟩ := List.mem_map.1 hx
      obtain ⟨cell', -, rfl⟩ := List.mem_map.1 hy
      exact .inl hlt
  · intro x hx
    obtain ⟨row, hrow, cell, hcell, rfl⟩ := mem_entries.1 hx
    exact (h.kind row hrow).full cell hcell
  · intro x hx
    obtain ⟨row, hrow, cell, hcell, rfl⟩ := mem_entries.1 hx
    exact (h.kind row hrow).kind cell hcell

theorem Sound.namesAt_of_mem (h : t.Sound) {x : Expectation} (hx : x ∈ t.entries) :
    t.namesAt x.position.line x.position.column = x.names := by
  obtain ⟨row, hrow, cell, hcell, rfl⟩ := mem_entries.1 hx
  unfold namesAt
  have hline : Rows.under row.1 t.lines = row.2 := h.get_of_mem hrow
  rw [hline]
  exact (h.kind row hrow).get_of_mem hcell

/-- The entries have at every place what the table has there. -/
theorem Sound.namesAt_entries (h : t.Sound) (place : Position) :
    Expectation.namesAt place t.entries = t.namesAt place.line place.column := by
  by_cases hnone : t.namesAt place.line place.column = []
  · rw [hnone]
    by_contra hsome
    obtain ⟨x, hx, hplace, hnames⟩ := Keyed.exists_of_get hsome
    have hfound := h.namesAt_of_mem hx
    rw [hplace, hnone, hnames] at hfound
    exact hsome hfound.symm
  · obtain ⟨cell, hcell, hcolumn, hnames⟩ := Keyed.exists_of_get hnone
    have hline : Rows.under place.line t.lines ≠ [] := List.ne_nil_of_mem hcell
    obtain ⟨row, hrow, hnumber, hcells⟩ := Keyed.exists_of_get hline
    have hentry : (⟨⟨row.1, cell.1⟩, cell.2⟩ : Expectation) ∈ t.entries :=
      mem_entries.2 ⟨row, hrow, cell, hcells ▸ hcell, rfl⟩
    have hplace : place = ⟨row.1, cell.1⟩ := by rw [hnumber, hcolumn]
    rw [hplace]
    exact (h.ordered_entries.get_of_mem hentry).trans (h.namesAt_of_mem hentry).symm

/-- No line is without columns, so the last column of the last line is the last entry. -/
theorem Sound.furthest?_eq (h : t.Sound) : t.furthest? = t.entries.getLast? := by
  obtain ⟨lines⟩ := t
  induction lines using List.reverseRecOn with
  | nil => rfl
  | append_singleton lines row _ =>
    have hrow : row.2.getLast? ≠ none :=
      fun hnone => h.full row (by simp) (List.getLast?_eq_none_iff.1 hnone)
    obtain ⟨cell, hcell⟩ := Option.ne_none_iff_exists'.1 hrow
    simp [furthest?, entries, hcell, List.getLast?_append]

theorem Sound.isEmpty_iff (h : t.Sound) : t.isEmpty ↔ t.entries = [] := by
  obtain ⟨lines⟩ := t
  cases lines with
  | nil => exact ⟨fun _ => rfl, fun _ => rfl⟩
  | cons row lines =>
    have hrow : row.2 ≠ [] := (Keyed.sound_cons.1 h).2.1
    simp [isEmpty, entries, hrow]

/-- Tables are the same just if they have the same names at every place. -/
theorem Sound.same_iff (hs : s.Sound) (ht : t.Sound) : s.same t ↔ ∀ line column,
    s.namesAt line column ⊆ t.namesAt line column ∧
      t.namesAt line column ⊆ s.namesAt line column := by
  unfold same
  simp only [Keyed.isEqv_iff_forall₂, Bool.and_eq_true, beq_iff_eq]
  rw [Keyed.forall₂_iff_get (Q := fun cells others : Rows String => List.Forall₂
    (fun c d => c.1 = d.1 ∧ eqNames c.2 d.2) cells others) .nil (fun h => by cases h; rfl)
    (fun h => by cases h; rfl) hs ht]
  refine forall_congr' fun line => ?_
  have hcells : ∀ {t : LineTable}, t.Sound → Rows.Sound List.Nodup (Rows.under line t.lines) :=
    fun ht => Keyed.Sound.get_kind ht Keyed.sound_nil line
  rw [Keyed.forall₂_iff_get (Q := fun ms ns => eqNames ms ns = true) rfl eq_nil_of_eqNames_nil
    eq_nil_of_nil_eqNames (hcells hs) (hcells ht)]
  exact forall_congr' fun column => eqNames_iff ((hcells hs).get_kind List.nodup_nil column)
    ((hcells ht).get_kind List.nodup_nil column)

end LineTable

/-- How a set came to be, from empty ones by insertions and merges. -/
inductive History where
  | empty
  | insert (past : History) (place : Position) (name : String)
  | merge (past other : History)

namespace History

def set : History → Expectations
  | empty => .empty
  | insert past place name => past.set.insert place name
  | merge past other => past.set.merge other.set

/-- The same, done line by line and column by column. -/
def table : History → LineTable
  | empty => .empty
  | insert past place name => past.table.insert place name
  | merge past other => past.table.merge other.table

theorem ordered_set (h : History) : h.set.Ordered := by
  induction h with
  | empty => exact Expectations.ordered_empty
  | insert past place name ih => exact ih.insert place name
  | merge past other ih ih' => exact ih.merge ih'

theorem equivalence_sameNames :
    Equivalence fun h h' : History => h.set.sameNames h'.set = true where
  refl h := h.ordered_set.sameNames_refl
  symm := fun {h h'} => h.ordered_set.sameNames_symm h'.ordered_set
  trans := fun {h h' h''} => h.ordered_set.sameNames_trans h'.ordered_set h''.ordered_set

/-- A table has at every place what the set has there, and in the same order. -/
theorem sound_table (h : History) : h.table.Sound ∧ ∀ place : Position,
    h.table.namesAt place.line place.column = h.set.namesAt place := by
  induction h with
  | empty => exact ⟨LineTable.sound_empty, fun _ => rfl⟩
  | insert past place name ih =>
    obtain ⟨hsound, hnames⟩ := ih.1.insert place name
    refine ⟨hsound, fun place' => ?_⟩
    have hplace : place'.line = place.line ∧ place'.column = place.column ↔ place = place' := by
      rw [eq_comm (a := place)]
      exact Position.mk.injEq .. ▸ Iff.rfl
    have hset := past.ordered_set.namesAt_merge (Expectations.ordered_single place name) place'
    rw [table, set, hnames, ih.2, Expectations.insert, hset, Expectations.namesAt_single]
    by_cases hp : place = place'
    · rw [if_pos (hplace.2 hp), if_pos hp, LineTable.addName_eq_filter]
    · rw [if_neg (mt hplace.1 hp), if_neg hp, List.filter_nil, List.append_nil]
  | merge past other ih ih' =>
    obtain ⟨hsound, hnames⟩ := ih.1.merge ih'.1
    refine ⟨hsound, fun place => ?_⟩
    rw [table, set, hnames, ih.2, ih'.2, past.ordered_set.namesAt_merge other.ordered_set,
      LineTable.addNames_eq_filter (other.ordered_set.nodup_namesAt place)]

theorem entries_table (h : History) : h.table.entries = h.set.entries := by
  obtain ⟨hsound, hnames⟩ := h.sound_table
  have hforall := Keyed.forall₂_of_get (Q := (· = ·)) rfl (fun h => h) (fun h => h.symm)
    hsound.ordered_entries h.ordered_set
    fun place => (hsound.namesAt_entries place).trans (hnames place)
  refine List.forall₂_eq_eq_eq ▸ hforall.imp fun a b hab => ?_
  exact (Expectation.mk.injEq ..).mpr hab

theorem same_table (h other : History) : h.table.same other.table = h.set.sameNames other.set := by
  rw [Bool.eq_iff_iff, h.sound_table.1.same_iff other.sound_table.1,
    h.ordered_set.sameNames_iff other.ordered_set]
  constructor
  · intro hsub place
    rw [← h.sound_table.2, ← other.sound_table.2]
    exact hsub place.line place.column
  · intro hsub line column
    have hplace := hsub ⟨line, column⟩
    rwa [← h.sound_table.2, ← other.sound_table.2] at hplace

/-- Merging is a join of sets that are compared without the order of their names, and an insertion
is a merge. At a place a merge has the names of the first set and then what only the second has
there. The entries are in source order and none is without names, so a set is empty just if nothing
lies furthest in it; and the same is seen of a table by lines and columns that came to be in the
same way. -/
theorem semilattice (r s t : History) :
    (Equivalence fun h h' : History => h.set.sameNames h'.set = true) ∧
    ((r.set.sameNames s.set → (r.set.merge t.set).sameNames (s.set.merge t.set)) ∧
      (s.set.merge t.set).sameNames (t.set.merge s.set) ∧
      ((r.set.merge s.set).merge t.set).sameNames (r.set.merge (s.set.merge t.set)) ∧
      (s.set.merge s.set).sameNames s.set ∧
      (s.set.merge .empty).sameNames s.set ∧ (Expectations.empty.merge s.set).sameNames s.set ∧
      ∀ place name, (s.set.insert place name).sameNames
        (s.set.merge (Expectations.empty.insert place name))) ∧
    (∀ place, (s.set.merge t.set).namesAt place =
        s.set.namesAt place ++ (t.set.namesAt place).filter (· ∉ s.set.namesAt place) ∧
      ((s.set.merge t.set).namesAt place).Nodup) ∧
    ((s.set.entries.Pairwise fun x y => x.position < y.position) ∧
      ∀ x ∈ s.set.entries, x.names ≠ [] ∧ s.set.namesAt x.position = x.names) ∧
    (s.set.furthest? = s.set.entries.getLast? ∧ (s.set.isEmpty ↔ s.set.entries = []) ∧
      (s.set.furthest? = none ↔ s.set.entries = []) ∧
      (s.set.parseError? = none ↔ s.set.entries = [])) ∧
    (s.table.same t.table = s.set.sameNames t.set ∧ s.table.entries = s.set.entries ∧
      (∀ place : Position, s.table.namesAt place.line place.column = s.set.namesAt place) ∧
      s.table.furthest? = s.set.furthest? ∧ s.table.isEmpty = s.set.isEmpty) := by
  have hr := r.ordered_set
  have hs := s.ordered_set
  have ht := t.ordered_set
  have hempty := Expectations.ordered_empty
  obtain ⟨hsound, hnames⟩ := s.sound_table
  refine ⟨equivalence_sameNames, ⟨fun h => hr.sameNames_merge hs ht ht h ht.sameNames_refl,
    hs.merge_comm ht, hr.merge_assoc hs ht, hs.merge_self, ?_, ?_, fun place name => ?_⟩,
    fun place => ⟨hs.namesAt_merge ht place, (hs.merge ht).nodup_namesAt place⟩,
    ⟨hs.increasing, fun x hx => ⟨hs.full x hx, hs.namesAt_of_mem hx⟩⟩,
    ⟨rfl, Expectations.isEmpty_iff, Expectations.furthest?_eq_none,
      Expectations.parseError?_eq_none⟩,
    s.same_table t, s.entries_table, hnames, ?_, ?_⟩
  · rw [Expectations.merge_empty]
    exact hs.sameNames_refl
  · rw [Expectations.empty_merge]
    exact hs.sameNames_refl
  · rw [← Expectations.insert_eq_merge]
    exact (hs.insert place name).sameNames_refl
  · rw [hsound.furthest?_eq, s.entries_table, Expectations.furthest?]
  · rw [Bool.eq_iff_iff, hsound.isEmpty_iff, s.entries_table, Expectations.isEmpty_iff]

end History

end RankedGrammar
