import RankedGrammar.Proofs.Text.Reading

/-!
Grammars in extended Backus-Naur form and the texts that they derive. A text may be derived in
several ways: nothing here is ranked, and nothing is greedy.
-/
namespace RankedGrammar
open Text (CharClass Pattern Reading)

/-- What stands on the right of a rule of a grammar with the symbols `σ`. -/
inductive Phrase (σ : Type) where
  | symbol (s : σ)
  | text (t : String)
  /-- One character of a class. -/
  | one (k : CharClass)
  | seq (ps : List (Phrase σ))
  | oneOf (ps : List (Phrase σ))
  | many (p : Phrase σ)

namespace Phrase

variable {σ : Type}

def maybe (p : Phrase σ) : Phrase σ := oneOf [p, seq []]

/-- The texts that a phrase derives in the grammar with the rules `rule`. -/
inductive Derives (rule : σ → Phrase σ) : Phrase σ → List Char → Prop where
  | symbol {s : σ} {cs : List Char} (h : Derives rule (rule s) cs) : Derives rule (.symbol s) cs
  | text (t : String) : Derives rule (.text t) t.toList
  | one {k : CharClass} {c : Char} (h : k.contains c = true) : Derives rule (.one k) [c]
  | nil : Derives rule (.seq []) []
  | cons {p : Phrase σ} {ps : List (Phrase σ)} {cs ds : List Char} (h : Derives rule p cs)
      (hs : Derives rule (.seq ps) ds) : Derives rule (.seq (p :: ps)) (cs ++ ds)
  | oneOf {p : Phrase σ} {ps : List (Phrase σ)} {cs : List Char} (hp : p ∈ ps)
      (h : Derives rule p cs) : Derives rule (.oneOf ps) cs
  | none (p : Phrase σ) : Derives rule (.many p) []
  | more {p : Phrase σ} {cs ds : List Char} (h : Derives rule p cs)
      (hs : Derives rule (.many p) ds) : Derives rule (.many p) (cs ++ ds)

variable {rule : σ → Phrase σ} {p : Phrase σ} {ps : List (Phrase σ)} {cs ds : List Char}

theorem derives_symbol {s : σ} : Derives rule (.symbol s) cs ↔ Derives rule (rule s) cs := by
  constructor
  · rintro ⟨⟩
    assumption
  · exact .symbol

theorem derives_text {t : String} : Derives rule (.text t) cs ↔ cs = t.toList := by
  constructor
  · rintro ⟨⟩
    rfl
  · rintro rfl
    exact .text t

theorem derives_one {k : CharClass} :
    Derives rule (.one k) cs ↔ ∃ c, k.contains c = true ∧ cs = [c] := by
  constructor
  · rintro ⟨⟩
    exact ⟨_, ‹_›, rfl⟩
  · rintro ⟨c, hc, rfl⟩
    exact .one hc

theorem derives_nil : Derives rule (.seq []) cs ↔ cs = [] := by
  constructor
  · rintro ⟨⟩
    rfl
  · rintro rfl
    exact .nil

theorem derives_cons : Derives rule (.seq (p :: ps)) cs ↔
    ∃ as bs, Derives rule p as ∧ Derives rule (.seq ps) bs ∧ cs = as ++ bs := by
  constructor
  · rintro ⟨⟩
    exact ⟨_, _, ‹_›, ‹_›, rfl⟩
  · rintro ⟨as, bs, has, hbs, rfl⟩
    exact .cons has hbs

theorem derives_oneOf : Derives rule (.oneOf ps) cs ↔ ∃ p ∈ ps, Derives rule p cs := by
  constructor
  · rintro ⟨⟩
    exact ⟨_, ‹_›, ‹_›⟩
  · rintro ⟨p, hp, h⟩
    exact .oneOf hp h

/-- A repetition derives the texts that fall into pieces derived from its body. -/
theorem derives_many : Derives rule (.many p) cs ↔
    ∃ pieces : List (List Char), (∀ x ∈ pieces, Derives rule p x) ∧ cs = pieces.flatten := by
  constructor
  · intro h
    generalize hq : Phrase.many p = q at h
    induction h with
    | none => exact ⟨[], by simp, rfl⟩
    | @more _ as _ h _ _ ih =>
      cases hq
      obtain ⟨pieces, hpieces, rfl⟩ := ih rfl
      exact ⟨as :: pieces, List.forall_mem_cons.2 ⟨h, hpieces⟩, rfl⟩
    | _ => cases hq
  · rintro ⟨pieces, hpieces, rfl⟩
    induction pieces with
    | nil => exact .none p
    | cons x pieces ih =>
      rw [List.forall_mem_cons] at hpieces
      exact .more hpieces.1 (ih hpieces.2)

theorem derives_maybe : Derives rule p.maybe cs ↔ Derives rule p cs ∨ cs = [] := by
  rw [maybe, derives_oneOf]
  simp [derives_nil]

theorem derives_many_one {k : CharClass} :
    Derives rule (.many (.one k)) cs ↔ ∀ c ∈ cs, k.contains c = true := by
  constructor
  · intro h c hc
    obtain ⟨pieces, hpieces, rfl⟩ := derives_many.1 h
    obtain ⟨x, hx, hcx⟩ := List.mem_flatten.1 hc
    obtain ⟨d, hd, rfl⟩ := derives_one.1 (hpieces x hx)
    rw [List.mem_singleton.1 hcx]
    exact hd
  · intro h
    induction cs with
    | nil => exact .none _
    | cons c cs ih =>
      rw [List.forall_mem_cons] at h
      exact .more (.one h.1) (ih h.2)

end Phrase

namespace Text.Pattern
open Phrase (Derives)

variable {σ : Type}

/-- What a pattern reads, whatever stands around it. -/
def phrase : Pattern → Phrase σ
  | nothing => .seq []
  | one k => .one k
  | seq p q => .seq [p.phrase, q.phrase]
  | alt p q => .oneOf [p.phrase, q.phrase]
  | star p => .many p.phrase
  | atEnd => .seq []
  | wordEdge => .seq []

/-- Between the two readings a text of the phrase is taken. -/
def Spans (rule : σ → Phrase σ) (p : Phrase σ) (r r' : Reading) : Prop :=
  ∃ cs, Derives rule p cs ∧ r.rest = cs ++ r'.rest ∧ r'.taken = cs.reverse ++ r.taken

variable {rule : σ → Phrase σ} {p : Pattern} {r r' : Reading}

theorem Spans.trans {p q pq : Phrase σ} {s : Reading} (h : Spans rule p r s)
    (h' : Spans rule q s r')
    (hpq : ∀ {cs ds}, Derives rule p cs → Derives rule q ds → Derives rule pq (cs ++ ds)) :
    Spans rule pq r r' := by
  obtain ⟨cs, hcs, hrest, htaken⟩ := h
  obtain ⟨ds, hds, hrest', htaken'⟩ := h'
  refine ⟨cs ++ ds, hpq hcs hds, ?_, ?_⟩
  · rw [hrest, hrest', List.append_assoc]
  · rw [htaken', htaken, List.reverse_append, List.append_assoc]

theorem spans_refl {p : Phrase σ} (h : Derives rule p []) (r : Reading) : Spans rule p r r :=
  ⟨[], h, rfl, rfl⟩

/-- A way to read a pattern takes a text of its phrase. -/
theorem spans_of_mem_ends (h : r' ∈ p.ends r) : Spans rule p.phrase r r' := by
  induction p generalizing r r' with
  | nothing =>
    rw [ends, List.mem_singleton] at h
    rw [h]
    exact spans_refl .nil r
  | one k =>
    rw [ends] at h
    split at h
    · cases h
    · next c cs hrest =>
      split at h
      · next hc =>
        rw [List.mem_singleton] at h
        exact ⟨[c], .one hc, by simp [h, hrest]⟩
      · cases h
  | seq p q hp hq =>
    rw [ends, List.mem_flatMap] at h
    obtain ⟨s, hs, h⟩ := h
    apply (hp hs).trans (hq h)
    intro cs ds hcs hds
    rw [phrase, ← List.append_nil ds]
    exact .cons hcs (.cons hds .nil)
  | alt p q hp hq =>
    rw [ends, List.mem_append] at h
    rcases h with h | h
    · obtain ⟨cs, hcs, hread⟩ := hp h
      exact ⟨cs, .oneOf List.mem_cons_self hcs, hread⟩
    · obtain ⟨cs, hcs, hread⟩ := hq h
      exact ⟨cs, .oneOf (List.mem_cons_of_mem _ List.mem_cons_self) hcs, hread⟩
  | star p hp =>
    rw [ends] at h
    have hchain := Reading.rel_of_mem_repeatOnto (R := Spans rule p.star.phrase)
      (spans_refl (.none _)) (fun hs hr' => (hp hs).trans hr' .more) h
    exact hchain.resolve_left List.not_mem_nil
  | atEnd =>
    rw [ends] at h
    split at h
    · rw [List.mem_singleton] at h
      rw [h]
      exact spans_refl .nil r
    · cases h
  | wordEdge =>
    rw [ends] at h
    split at h
    · rw [List.mem_singleton] at h
      rw [h]
      exact spans_refl .nil r
    · cases h

theorem derives_of_match? {cs ds : List Char} (h : p.match? cs = some ds) :
    Derives rule p.phrase ds := by
  obtain ⟨r, hr, rfl⟩ := Option.map_eq_some_iff.1 h
  have hspans : Spans rule p.phrase ⟨[], cs⟩ r := spans_of_mem_ends (List.mem_of_mem_head? hr)
  obtain ⟨ds, hds, -, htaken⟩ := hspans
  rw [List.append_nil] at htaken
  rw [htaken, List.reverse_reverse]
  exact hds

end Text.Pattern

end RankedGrammar
