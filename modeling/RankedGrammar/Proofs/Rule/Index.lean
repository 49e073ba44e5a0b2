import RankedGrammar.Rule.Rulebook

/-!
Looking rules up. Rules under distinct names are kept as they were listed, so that each is found
under its name.
-/
namespace RankedGrammar

variable {γ : Type}

theorem eraseDups_concat (names : List String) (name : String) :
    (names ++ [name]).eraseDups =
      if name ∈ names.eraseDups then names.eraseDups else names.eraseDups ++ [name] := by
  rw [List.eraseDups_append]
  split
  · next hmem =>
    have hnone : [name].removeAll names = [] := by
      simp [List.removeAll, List.mem_eraseDups.1 hmem]
    rw [hnone, List.eraseDups_nil, List.append_nil]
  · next hnot =>
    have hall : [name].removeAll names = [name] := by
      simp [List.removeAll, mt List.mem_eraseDups.2 hnot]
    rw [hall]
    rfl

namespace Rulebook

variable {b : Rulebook γ} {name : String} {rule : γ} {rules : List (String × γ)} {e : String × γ}

theorem mem_insert (h : e ∈ (b.insert name rule).entries) : e ∈ b.entries ∨ e = (name, rule) := by
  unfold insert at h
  split at h
  · obtain ⟨e', he', rfl⟩ := List.mem_map.1 h
    split
    · exact .inr rfl
    · exact .inl he'
  · simpa using h

theorem mem_foldl_insert (h : e ∈ (rules.foldl (fun b e => b.insert e.1 e.2) b).entries) :
    e ∈ b.entries ∨ e ∈ rules := by
  induction rules generalizing b with
  | nil => exact .inl h
  | cons r rules ih =>
    rcases ih h with h | h
    · rcases mem_insert h with h | h
      · exact .inl h
      · exact .inr (h ▸ List.mem_cons_self)
    · exact .inr (List.mem_cons_of_mem r h)

theorem mem_ofList (h : e ∈ (ofList rules).entries) : e ∈ rules :=
  (mem_foldl_insert h).resolve_left fun h => nomatch h

theorem contains_iff : b.contains name ↔ name ∈ b.names := by
  rw [contains, get?, Option.isSome_map, List.find?_isSome, names, List.mem_map]
  simp

theorem entries_insert (h : name ∉ b.names) :
    (b.insert name rule).entries = b.entries ++ [(name, rule)] := by
  unfold insert
  rw [if_neg (mt contains_iff.1 h)]

theorem entries_foldl_insert (h : (b.names ++ rules.map (·.1)).Nodup) :
    (rules.foldl (fun b e => b.insert e.1 e.2) b).entries = b.entries ++ rules := by
  induction rules generalizing b with
  | nil => simp
  | cons r rules ih =>
    have hnew : r.1 ∉ b.names := by
      rw [List.map_cons, List.nodup_append] at h
      exact fun hmem => h.2.2 r.1 hmem r.1 List.mem_cons_self rfl
    have hentries : (b.insert r.1 r.2).entries = b.entries ++ [(r.1, r.2)] := entries_insert hnew
    have hnames : (b.insert r.1 r.2).names = b.names ++ [r.1] := by
      simp [names, hentries]
    rw [List.foldl_cons, ih (by simpa [hnames] using h), hentries, List.append_assoc]
    rfl

theorem entries_ofList (h : (rules.map (·.1)).Nodup) : (ofList rules).entries = rules :=
  entries_foldl_insert h

theorem get?_of_mem (hnames : b.names.Nodup) (h : (name, rule) ∈ b.entries) :
    b.get? name = some rule := by
  obtain ⟨es⟩ := b
  unfold get?
  unfold names at hnames
  dsimp only at h hnames ⊢
  induction es with
  | nil => cases h
  | cons e es ih =>
    rw [List.map_cons, List.nodup_cons] at hnames
    rcases List.mem_cons.1 h with rfl | h
    · simp
    · have hne : e.1 ≠ name := fun heq =>
        hnames.1 (List.mem_map.2 ⟨(name, rule), h, heq.symm⟩)
      simpa [hne] using ih hnames.2 h

end Rulebook

namespace RuleIndex

variable {x : RuleIndex γ} {layer : Layer} {rules : Rulebook γ} {name : String} {rule : γ}

theorem entries_overlay (x : RuleIndex γ) (layer : Layer) (rules : Rulebook γ) :
    (x.overlay layer rules).entries =
      (rules.entries.map fun e => (e.1, (⟨e.2, layer⟩ : Resolution γ))).foldl
        (fun b e => b.insert e.1 e.2) x.entries := by
  unfold overlay
  rw [List.foldl_map]

/-- A rule of an overlaid index is an old one or one of the layer. -/
theorem mem_overlay {e : String × Resolution γ} (h : e ∈ (x.overlay layer rules).entries.entries) :
    e ∈ x.entries.entries ∨ ∃ r ∈ rules.entries, e.2.rule = r.2 := by
  rw [entries_overlay] at h
  rcases Rulebook.mem_foldl_insert h with h | h
  · exact .inl h
  · obtain ⟨r, hr, rfl⟩ := List.mem_map.1 h
    exact .inr ⟨r, hr, rfl⟩

theorem mem_of_rule? (h : x.rule? name = some rule) : ∃ e ∈ x.entries.entries, e.2.rule = rule := by
  obtain ⟨r, hr, rfl⟩ := Option.map_eq_some_iff.1 h
  obtain ⟨e, he, rfl⟩ := Option.map_eq_some_iff.1 hr
  exact ⟨e, List.mem_of_find?_eq_some he, rfl⟩

/-- Where two layers share no name, the rules of both are found. -/
theorem rule?_merge {primitives parsers : Rulebook γ}
    (hnames : (parsers.names ++ primitives.names).Nodup)
    (h : (name, rule) ∈ parsers.entries ++ primitives.entries) :
    (merge .empty primitives parsers).rule? name = some rule := by
  have hparsers : (empty.overlay .parser parsers).entries.entries =
      parsers.entries.map fun e => (e.1, (⟨e.2, .parser⟩ : Resolution γ)) := by
    rw [entries_overlay, Rulebook.entries_foldl_insert]
    · rfl
    · simpa [empty, Rulebook.names, Rulebook.empty, Function.comp_def] using
        (List.nodup_append.1 hnames).1
  have hboth : ((empty.overlay .parser parsers).overlay .primitive primitives).entries.entries =
      (parsers.entries.map fun e => (e.1, (⟨e.2, .parser⟩ : Resolution γ))) ++
        primitives.entries.map fun e => (e.1, (⟨e.2, .primitive⟩ : Resolution γ)) := by
    rw [entries_overlay, Rulebook.entries_foldl_insert, hparsers]
    simpa [Rulebook.names, hparsers, Function.comp_def] using hnames
  obtain ⟨layer, hmem⟩ : ∃ layer, (name, (⟨rule, layer⟩ : Resolution γ)) ∈
      ((empty.overlay .parser parsers).overlay .primitive primitives).entries.entries := by
    rw [hboth]
    rcases List.mem_append.1 h with h | h
    · exact ⟨.parser, List.mem_append_left _ (List.mem_map_of_mem h)⟩
    · exact ⟨.primitive, List.mem_append_right _ (List.mem_map_of_mem h)⟩
  have hmerge : merge .empty primitives parsers =
      (empty.overlay .parser parsers).overlay .primitive primitives := rfl
  have hget : (merge .empty primitives parsers).resolution? name = some ⟨rule, layer⟩ := by
    rw [hmerge]
    refine Rulebook.get?_of_mem ?_ hmem
    simpa [Rulebook.names, hboth, Function.comp_def] using hnames
  unfold rule?
  rw [hget]
  rfl

end RuleIndex

end RankedGrammar
