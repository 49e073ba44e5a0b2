import RankedGrammar.Text.Pattern

/-!
The first way to read a pattern. Whether a pattern reads a text is told part by part from what
stands after the text, without going through all the ways.
-/
namespace RankedGrammar.Text

namespace Reading

variable {step : Reading → List Reading}

/-- More turns than there are characters left, and whatever is to follow, do not change the first
way of a repetition. -/
theorem head?_repeatOnto {n : Nat} {r : Reading} {after : List Reading} (h : r.rest.length ≤ n) :
    (repeatOnto step n r after).head? = (repeatOnto step r.rest.length r []).head? := by
  induction n using Nat.strongRecOn generalizing r after with
  | ind n ih =>
    have key : ∀ (m : Nat) (after : List Reading), m ≤ n → r.rest.length ≤ m →
        (repeatOnto step m r after).head? =
          match (step r).filter (·.rest.length < r.rest.length) with
          | [] => some r
          | s :: _ => (repeatOnto step s.rest.length s []).head? := by
      intro m after hmn hm
      cases hturns : (step r).filter (·.rest.length < r.rest.length) with
      | nil =>
        cases m with
        | zero => rfl
        | succ m =>
          rw [repeatOnto, hturns]
          rfl
      | cons s turns =>
        have hs : s ∈ (step r).filter (·.rest.length < r.rest.length) := by
          rw [hturns]
          exact List.mem_cons_self
        have hlt : s.rest.length < r.rest.length := by
          simpa using (List.mem_filter.1 hs).2
        obtain ⟨m, rfl⟩ : ∃ m', m = m' + 1 := ⟨m - 1, by omega⟩
        rw [repeatOnto, hturns, List.foldr_cons]
        have hsm : s.rest.length ≤ m := by omega
        exact ih m (by omega) hsm
    rw [key n after (Nat.le_refl n) h, key _ [] h (Nat.le_refl _)]

/-- A way to repeat a step is a chain of its ways, stated for whatever such chains preserve. -/
theorem rel_of_mem_repeatOnto {R : Reading → Reading → Prop} {n : Nat} {r r' : Reading}
    {after : List Reading} (hrefl : ∀ r, R r r)
    (hstep : ∀ {r s r'}, s ∈ step r → R s r' → R r r') (h : r' ∈ repeatOnto step n r after) :
    r' ∈ after ∨ R r r' := by
  induction n generalizing r r' after with
  | zero =>
    rcases List.mem_cons.1 h with rfl | h
    · exact .inr (hrefl r')
    · exact .inl h
  | succ n ih =>
    have hfold : ∀ turns : List Reading, (∀ s ∈ turns, s ∈ step r) →
        ∀ r' ∈ turns.foldr (repeatOnto step n) (r :: after), r' ∈ after ∨ R r r' := by
      intro turns hturns
      induction turns with
      | nil =>
        intro r' h
        rcases List.mem_cons.1 h with rfl | h
        · exact .inr (hrefl r')
        · exact .inl h
      | cons s turns ihturns =>
        intro r' h
        rw [List.forall_mem_cons] at hturns
        rcases ih h with h | h
        · exact ihturns hturns.2 r' h
        · exact .inr (hstep hturns.1 h)
    exact hfold _ (fun s hs => (List.mem_filter.1 hs).1) r' h

end Reading

namespace Pattern

variable {p q : Pattern} {k : CharClass} {before us vs ws : List Char} {c : Char} {n : Nat}

/-- Of `us ++ vs` the first way reads `us`; what was read before comes last character first. -/
def Reads (p : Pattern) (before us vs : List Char) : Prop :=
  (p.ends ⟨before, us ++ vs⟩).head? = some ⟨us.reverse ++ before, vs⟩

/-- There is no way to read the pattern. -/
def Rejects (p : Pattern) (before vs : List Char) : Prop := p.ends ⟨before, vs⟩ = []

theorem isPrefix_of_match? (h : p.match? vs = some us) : us <+: vs := by
  obtain ⟨r, hr, rfl⟩ := Option.map_eq_some_iff.1 h
  exact ⟨r.rest, text_of_mem_ends (List.mem_of_mem_head? hr)⟩

/-- The way that is the match. -/
theorem mem_ends_of_match? (h : p.match? (us ++ vs) = some us) :
    ⟨us.reverse, vs⟩ ∈ p.ends ⟨[], us ++ vs⟩ := by
  obtain ⟨⟨taken, rest⟩, hr, htaken⟩ := Option.map_eq_some_iff.1 h
  have hmem := List.mem_of_mem_head? hr
  have htext : taken.reverse ++ rest = us ++ vs := text_of_mem_ends hmem
  obtain rfl : taken = us.reverse := List.reverse_eq_iff.1 htaken
  rw [List.reverse_reverse] at htext
  obtain rfl : rest = vs := List.append_cancel_left htext
  exact hmem

theorem atWordEdge_of_mem_ends {r r' : Reading} (h : r' ∈ (seq p wordEdge).ends r) :
    r'.atWordEdge = true := by
  obtain ⟨r₁, -, hr'⟩ := List.mem_flatMap.1 h
  rw [ends] at hr'
  split at hr'
  · next hedge =>
    rw [List.mem_singleton.1 hr']
    exact hedge
  · cases hr'

theorem match?_of_reads (h : p.Reads [] us vs) : p.match? (us ++ vs) = some us := by
  unfold Reads at h
  unfold match?
  rw [h]
  simp

theorem match?_of_rejects (h : p.Rejects [] vs) : p.match? vs = none := by
  unfold Rejects at h
  unfold match?
  rw [h]
  rfl

theorem reads_nothing : nothing.Reads before [] vs := rfl

theorem reads_one (h : k.contains c = true) : (one k).Reads before [c] vs := by
  simp [Reads, ends, h]

theorem rejects_one (h : vs.head?.any k.contains = false) : (one k).Rejects before vs := by
  unfold Rejects ends
  cases vs with
  | nil => rfl
  | cons c vs =>
    have hc : k.contains c = false := h
    simp [hc]

theorem reads_wordEdge (h : Reading.atWordEdge ⟨before, vs⟩ = true) :
    wordEdge.Reads before [] vs := by
  simp [Reads, ends, h]

theorem Reads.seq (hp : p.Reads before us (ws ++ vs)) (hq : q.Reads (us.reverse ++ before) ws vs) :
    (seq p q).Reads before (us ++ ws) vs := by
  unfold Reads at *
  rw [ends, List.append_assoc]
  obtain ⟨ways, hways⟩ : ∃ ways, p.ends ⟨before, us ++ (ws ++ vs)⟩ =
      ⟨us.reverse ++ before, ws ++ vs⟩ :: ways := List.head?_eq_some_iff.1 hp
  rw [hways, List.flatMap_cons, List.head?_append, hq]
  simp

theorem Rejects.seq (h : p.Rejects before vs) : (seq p q).Rejects before vs := by
  unfold Rejects at *
  rw [ends, h]
  rfl

theorem rejects_seq_one (hc : k.contains c = true) (h : q.Rejects (c :: before) vs) :
    (seq (one k) q).Rejects before (c :: vs) := by
  have hone : (one k).ends ⟨before, c :: vs⟩ = [⟨c :: before, vs⟩] := by
    simp [ends, hc]
  unfold Rejects
  rw [ends, hone, List.flatMap_singleton]
  exact h

theorem Reads.alt_left (h : p.Reads before us vs) : (alt p q).Reads before us vs := by
  unfold Reads at *
  rw [ends, List.head?_append, h]
  rfl

theorem Reads.alt_right (hp : p.Rejects before (us ++ vs)) (h : q.Reads before us vs) :
    (alt p q).Reads before us vs := by
  unfold Reads Rejects at *
  rw [ends, hp, List.nil_append, h]

theorem Rejects.alt (hp : p.Rejects before vs) (hq : q.Rejects before vs) :
    (alt p q).Rejects before vs := by
  unfold Rejects at *
  rw [ends, hp, hq]
  rfl

/-- A repetition ends where it cannot go on. -/
theorem Rejects.star (h : p.Rejects before vs) : (star p).Reads before [] vs := by
  unfold Reads Rejects at *
  rw [ends, List.nil_append]
  cases vs with
  | nil => rfl
  | cons c vs =>
    rw [List.length_cons, Reading.repeatOnto, h]
    rfl

/-- A repetition goes on where it can. -/
theorem Reads.star (hp : p.Reads before us (ws ++ vs)) (hus : us ≠ [])
    (hstar : (star p).Reads (us.reverse ++ before) ws vs) : (star p).Reads before (us ++ ws) vs := by
  unfold Reads at *
  rw [ends] at hstar ⊢
  rw [List.append_assoc]
  obtain ⟨ways, hways⟩ : ∃ ways, p.ends ⟨before, us ++ (ws ++ vs)⟩ =
      ⟨us.reverse ++ before, ws ++ vs⟩ :: ways := List.head?_eq_some_iff.1 hp
  have hpos : 0 < us.length := List.length_pos_iff.2 hus
  obtain ⟨m, hm⟩ : ∃ m, (us ++ (ws ++ vs)).length = m + 1 :=
    ⟨us.length - 1 + (ws ++ vs).length, by rw [List.length_append]; omega⟩
  have hle : (ws ++ vs).length ≤ m := by
    rw [List.length_append] at hm
    omega
  have hturn : decide ((ws ++ vs).length < (us ++ (ws ++ vs)).length) = true := by
    rw [hm]
    exact decide_eq_true (Nat.lt_succ_of_le hle)
  dsimp only at hstar ⊢
  rw [hm, Reading.repeatOnto, hways, List.filter_cons, if_pos hturn, List.foldr_cons,
    Reading.head?_repeatOnto hle, hstar]
  simp

theorem reads_star_one (hus : ∀ c ∈ us, k.contains c = true)
    (hvs : vs.head?.any k.contains = false) : (star (one k)).Reads before us vs := by
  induction us generalizing before with
  | nil => exact (rejects_one hvs).star
  | cons c us ih =>
    rw [List.forall_mem_cons] at hus
    exact (reads_one hus.1).star (List.cons_ne_nil c []) (ih hus.2)

theorem reads_times (hus : ∀ c ∈ us, k.contains c = true) :
    (times us.length (one k)).Reads before us vs := by
  induction us generalizing before with
  | nil => exact reads_nothing
  | cons c us ih =>
    rw [List.forall_mem_cons] at hus
    exact (reads_one hus.1).seq (ih hus.2)

theorem rejects_times (hus : ∀ c ∈ us, k.contains c = true)
    (hvs : vs.head?.any k.contains = false) (hn : us.length < n) :
    (times n (one k)).Rejects before (us ++ vs) := by
  induction us generalizing before n with
  | nil =>
    obtain ⟨m, rfl⟩ : ∃ m, n = m + 1 := ⟨n - 1, by omega⟩
    exact (rejects_one hvs).seq
  | cons c us ih =>
    rw [List.forall_mem_cons] at hus
    obtain ⟨m, rfl⟩ : ∃ m, n = m + 1 := ⟨n - 1, by omega⟩
    exact rejects_seq_one hus.1 (ih hus.2 (Nat.lt_of_succ_lt_succ hn))

end Pattern

end RankedGrammar.Text
