import RankedGrammar.Proofs.Grammar.Phrase
import RankedGrammar.Rule.Tokens

/-!
Reading tokens. A pattern reads every text of its phrase whole, given a character after it that
cannot go on with the token, and it rejects every text that begins with another character.
-/
namespace RankedGrammar
open Text (CharClass Pattern)

theorem Text.CharClass.contains_ofChar {c d : Char} :
    (CharClass.ofChar c).contains d = true ↔ d = c := by
  simp only [CharClass.contains, CharClass.ofChar, List.any_cons, List.any_nil, Bool.or_false,
    Bool.bne_false, Bool.and_eq_true, decide_eq_true_eq]
  constructor
  · rintro ⟨hle, hge⟩
    exact Char.le_antisymm hge hle
  · rintro rfl
    exact ⟨Char.le_refl d, Char.le_refl d⟩

namespace Phrase

variable {σ : Type} {rule : σ → Phrase σ} {p q : Phrase σ} {cs : List Char}

theorem derives_pair : Derives rule (.seq [p, q]) cs ↔
    ∃ as bs, Derives rule p as ∧ Derives rule q bs ∧ cs = as ++ bs := by
  simp [derives_cons, derives_nil]

theorem derives_either : Derives rule (.oneOf [p, q]) cs ↔ Derives rule p cs ∨ Derives rule q cs := by
  simp [derives_oneOf]

end Phrase

namespace Text.Pattern
open Phrase (Derives)

variable {σ : Type} {rule : σ → Phrase σ} {k : CharClass} {before us vs : List Char} {c : Char}

theorem derives_char : Derives rule (char c).phrase us ↔ us = [c] := by
  rw [char, phrase, Phrase.derives_one]
  simp [CharClass.contains_ofChar]

theorem derives_plus_one : Derives rule (plus (one k)).phrase us ↔
    us ≠ [] ∧ ∀ c ∈ us, k.contains c = true := by
  simp only [plus, phrase, Phrase.derives_pair, Phrase.derives_one, Phrase.derives_many_one]
  constructor
  · rintro ⟨_, ds, ⟨c, hc, rfl⟩, hds, rfl⟩
    simpa [hc] using hds
  · rintro ⟨hne, hus⟩
    obtain ⟨c, ds, rfl⟩ := List.exists_cons_of_ne_nil hne
    rw [List.forall_mem_cons] at hus
    exact ⟨[c], ds, ⟨c, hus.1, rfl⟩, hus.2, rfl⟩

theorem derives_times {n : Nat} : Derives rule (times n (one k)).phrase us ↔
    us.length = n ∧ ∀ c ∈ us, k.contains c = true := by
  induction n generalizing us with
  | zero =>
    rw [times, phrase, Phrase.derives_nil, List.length_eq_zero_iff]
    constructor
    · rintro rfl
      simp
    · exact fun h => h.1
  | succ n ih =>
    simp only [times, phrase, Phrase.derives_pair, Phrase.derives_one, ih]
    constructor
    · rintro ⟨_, ds, ⟨c, hc, rfl⟩, ⟨hlen, hds⟩, rfl⟩
      simpa [hc, hlen] using hds
    · rintro ⟨hlen, hus⟩
      obtain ⟨c, ds, rfl⟩ := List.exists_cons_of_length_eq_add_one hlen
      rw [List.forall_mem_cons] at hus
      exact ⟨[c], ds, ⟨c, hus.1, rfl⟩, ⟨Nat.succ.inj hlen, hus.2⟩, rfl⟩

theorem derives_opt {p : Pattern} :
    Derives rule p.opt.phrase us ↔ Derives rule p.phrase us ∨ us = [] := by
  rw [opt, phrase, Phrase.derives_either, phrase, Phrase.derives_nil]

theorem reads_char : (char c).Reads before [c] vs := reads_one (CharClass.contains_ofChar.2 rfl)

theorem rejects_char (h : vs.head? ≠ some c) : (char c).Rejects before vs := by
  apply rejects_one
  cases vs with
  | nil => rfl
  | cons d vs =>
    have hne : d ≠ c := fun heq => h (congrArg some heq)
    exact Bool.eq_false_iff.2 fun hd => hne (CharClass.contains_ofChar.1 hd)

theorem reads_plus_one (hne : us ≠ []) (hus : ∀ c ∈ us, k.contains c = true)
    (hvs : vs.head?.any k.contains = false) : (plus (one k)).Reads before us vs := by
  obtain ⟨c, ds, rfl⟩ := List.exists_cons_of_ne_nil hne
  rw [List.forall_mem_cons] at hus
  exact (reads_one hus.1).seq (reads_star_one hus.2 hvs)

theorem reads_opt_nil {p : Pattern} (h : p.Rejects before vs) : p.opt.Reads before [] vs :=
  Reads.alt_right h reads_nothing

end Text.Pattern

namespace Tokens
open Text.Pattern
open Phrase (Derives)

variable {σ : Type} {rule : σ → Phrase σ} {us vs : List Char}

def numberPart (c : Char) : Bool := digit.contains c || c == '.'

theorem derives_ident : Derives rule ident.phrase us ↔
    ∃ c cs, us = c :: cs ∧ identStart.contains c = true ∧ ∀ d ∈ cs, identPart.contains d = true := by
  rw [ident, phrase, phrase, phrase, phrase, Phrase.derives_pair]
  simp only [Phrase.derives_one, Phrase.derives_many_one]
  constructor
  · rintro ⟨_, ds, ⟨c, hc, rfl⟩, hds, rfl⟩
    exact ⟨c, ds, rfl, hc, hds⟩
  · rintro ⟨c, cs, rfl, hc, hcs⟩
    exact ⟨[c], cs, ⟨c, hc, rfl⟩, hcs, rfl⟩

theorem reads_ident (h : Derives rule ident.phrase us)
    (hvs : vs.head?.any identPart.contains = false) : ident.Reads [] us vs := by
  obtain ⟨c, cs, rfl, hc, hcs⟩ := derives_ident.1 h
  exact (reads_one hc).seq (reads_star_one hcs hvs)

theorem rejects_ident (h : vs.head?.any identStart.contains = false) : ident.Rejects [] vs :=
  (rejects_one h).seq

theorem derives_fraction {frac : List Char} :
    Derives rule (Pattern.seq (char '.') (plus (one digit))).phrase frac ↔
      ∃ ds, frac = '.' :: ds ∧ ds ≠ [] ∧ ∀ c ∈ ds, digit.contains c = true := by
  rw [phrase, Phrase.derives_pair]
  simp only [derives_char, derives_plus_one]
  constructor
  · rintro ⟨_, ds, rfl, ⟨hne, hds⟩, rfl⟩
    exact ⟨ds, rfl, hne, hds⟩
  · rintro ⟨ds, rfl, hne, hds⟩
    exact ⟨['.'], ds, rfl, ⟨hne, hds⟩, rfl⟩

theorem derives_number : Derives rule number.phrase us ↔
    ∃ ds frac, us = ds ++ frac ∧ (∀ c ∈ ds, digit.contains c = true) ∧ us ≠ [] ∧
      (frac = [] ∨ ∃ fs, frac = '.' :: fs ∧ fs ≠ [] ∧ ∀ c ∈ fs, digit.contains c = true) := by
  rw [number, phrase, Phrase.derives_either, derives_fraction, phrase, Phrase.derives_pair]
  simp only [derives_plus_one, derives_opt, derives_fraction]
  constructor
  · rintro (⟨ds, frac, ⟨hne, hds⟩, hfrac, rfl⟩ | ⟨fs, rfl, hne, hfs⟩)
    · exact ⟨ds, frac, rfl, hds, by simp [hne], hfrac.symm⟩
    · exact ⟨[], _, rfl, by simp, by simp, .inr ⟨fs, rfl, hne, hfs⟩⟩
  · rintro ⟨ds, frac, rfl, hds, hne, hfrac⟩
    by_cases hnil : ds = []
    · subst hnil
      rcases hfrac with rfl | hfrac
      · exact absurd rfl hne
      · exact .inr hfrac
    · exact .inl ⟨ds, frac, ⟨hnil, hds⟩, hfrac.symm, rfl⟩

theorem reads_fraction {before fs : List Char} (hne : fs ≠ [])
    (hfs : ∀ c ∈ fs, digit.contains c = true) (hvs : vs.head?.any digit.contains = false) :
    (Pattern.seq (char '.') (plus (one digit))).Reads before ('.' :: fs) vs :=
  reads_char.seq (reads_plus_one hne hfs hvs)

theorem reads_number (h : Derives rule number.phrase us)
    (hvs : vs.head?.any numberPart = false) : number.Reads [] us vs := by
  have hdigit : vs.head?.any digit.contains = false := by
    cases vs with
    | nil => rfl
    | cons c vs => exact (Bool.or_eq_false_iff.1 hvs).1
  have hpoint : vs.head? ≠ some '.' := by
    cases vs with
    | nil => simp
    | cons c vs => simpa using (Bool.or_eq_false_iff.1 hvs).2
  obtain ⟨ds, frac, rfl, hds, hne, hfrac⟩ := derives_number.1 h
  by_cases hnil : ds = []
  · subst hnil
    rcases hfrac with rfl | ⟨fs, rfl, hfs, hfrac⟩
    · exact absurd rfl hne
    · exact .alt_right (rejects_one rfl).seq.seq (reads_fraction hfs hfrac hdigit)
  · apply Reads.alt_left
    rcases hfrac with rfl | ⟨fs, rfl, hfs, hfrac⟩
    · exact (reads_plus_one hnil hds hdigit).seq (reads_opt_nil (rejects_char hpoint).seq)
    · exact (reads_plus_one hnil hds rfl).seq (.alt_left (reads_fraction hfs hfrac hdigit))

theorem rejects_number (h : vs.head?.any numberPart = false) : number.Rejects [] vs := by
  cases vs with
  | nil => rfl
  | cons c vs =>
    obtain ⟨hdigit, hpoint⟩ := Bool.or_eq_false_iff.1 h
    have hdigit : (c :: vs).head?.any digit.contains = false := hdigit
    have hpoint : (c :: vs).head? ≠ some '.' := by simpa using hpoint
    exact (rejects_one hdigit).seq.seq.alt (rejects_char hpoint).seq

/-- A piece of a string is read whole, whatever follows. -/
theorem reads_stringItem {before : List Char} (h : Derives rule stringItem.phrase us) :
    stringItem.Reads before us vs ∧ us ≠ [] := by
  rw [stringItem, phrase, Phrase.derives_either, phrase, phrase, Phrase.derives_pair,
    Phrase.derives_one] at h
  rcases h with ⟨c, hc, rfl⟩ | ⟨as, bs, has, hbs, rfl⟩
  · exact ⟨.alt_left (reads_one hc), List.cons_ne_nil c []⟩
  · rw [phrase, Phrase.derives_one] at hbs
    obtain ⟨c, hc, rfl⟩ := hbs
    rw [derives_char.1 has]
    exact ⟨.alt_right (rejects_one rfl) (reads_char.seq (reads_one hc)), by simp⟩

theorem rejects_stringItem {before : List Char} : stringItem.Rejects before ('"' :: vs) :=
  (rejects_one rfl).alt (rejects_char (by simp)).seq

theorem reads_star_stringItem {before : List Char} {pieces : List (List Char)}
    (h : ∀ x ∈ pieces, Derives rule stringItem.phrase x) :
    stringItem.star.Reads before pieces.flatten ('"' :: vs) := by
  induction pieces generalizing before with
  | nil => exact rejects_stringItem.star
  | cons x pieces ih =>
    rw [List.forall_mem_cons] at h
    obtain ⟨hreads, hne⟩ := reads_stringItem h.1
    exact hreads.star hne (ih h.2)

theorem derives_stringLit : Derives rule stringLit.phrase us ↔
    ∃ pieces : List (List Char), us = '"' :: (pieces.flatten ++ ['"']) ∧
      ∀ x ∈ pieces, Derives rule stringItem.phrase x := by
  rw [stringLit, phrase, phrase, phrase]
  simp only [Phrase.derives_pair, derives_char, Phrase.derives_many]
  constructor
  · rintro ⟨_, _, rfl, ⟨_, _, ⟨pieces, hpieces, rfl⟩, rfl, rfl⟩, rfl⟩
    exact ⟨pieces, rfl, hpieces⟩
  · rintro ⟨pieces, rfl, hpieces⟩
    exact ⟨['"'], _, rfl, ⟨_, ['"'], ⟨pieces, hpieces, rfl⟩, rfl, rfl⟩, rfl⟩

theorem reads_stringLit (h : Derives rule stringLit.phrase us) : stringLit.Reads [] us vs := by
  obtain ⟨pieces, rfl, hpieces⟩ := derives_stringLit.1 h
  have hitems : stringItem.star.Reads ['"'] pieces.flatten ('"' :: vs) :=
    reads_star_stringItem hpieces
  exact reads_char.seq (hitems.seq reads_char)

theorem rejects_stringLit (h : vs.head? ≠ some '"') : stringLit.Rejects [] vs :=
  (rejects_char h).seq

theorem exists_of_derives_colorHash (h : Derives rule colorHash.phrase us) :
    ∃ hs, us = '#' :: hs ∧ (∀ c ∈ hs, hexDigit.contains c = true) ∧
      (hs.length = 8 ∨ hs.length = 6 ∨ ∃ as bs, hs = as ++ bs ∧ as.length = 3 ∧ bs.length ≤ 1) := by
  rw [colorHash, phrase, phrase, phrase, phrase, phrase, phrase] at h
  simp only [Phrase.derives_pair, Phrase.derives_either, Phrase.derives_nil, derives_char,
    derives_times, derives_opt, phrase, Phrase.derives_one] at h
  obtain ⟨_, _, rfl, ⟨hs, _, hlen, rfl, rfl⟩, rfl⟩ := h
  rw [List.append_nil]
  refine ⟨hs, rfl, ?_⟩
  rcases hlen with h | h | ⟨as, bs, ⟨hlen, has⟩, hbs, rfl⟩
  · exact ⟨h.2, .inl h.1⟩
  · exact ⟨h.2, .inr (.inl h.1)⟩
  · have hone : (∀ c ∈ bs, hexDigit.contains c = true) ∧ bs.length ≤ 1 := by
      rcases hbs with ⟨c, hc, rfl⟩ | rfl
      · simpa using hc
      · simp
    exact ⟨List.forall_mem_append.2 ⟨has, hone.1⟩, .inr (.inr ⟨as, bs, rfl, hlen, hone.2⟩)⟩

theorem isWordChar_of_hexDigit {c : Char} (h : hexDigit.contains c = true) :
    Text.isWordChar c = true := by
  apply Text.isWordChar_of_ascii
  have hv : c.toNat = c.val.toNat := rfl
  simp [hexDigit, CharClass.contains, Char.le_def, UInt32.le_iff_toNat_le] at h
  omega

theorem reads_hexDigits {before hs : List Char} (hhs : ∀ c ∈ hs, hexDigit.contains c = true)
    (hlen : hs.length = 8 ∨ hs.length = 6 ∨
      ∃ as bs, hs = as ++ bs ∧ as.length = 3 ∧ bs.length ≤ 1)
    (hvs : vs.head?.any hexDigit.contains = false) :
    (Pattern.alt (.times 8 (.one hexDigit)) <| .alt (.times 6 (.one hexDigit))
      (.seq (.times 3 (.one hexDigit)) (.opt (.one hexDigit)))).Reads before hs vs := by
  rcases hlen with hlen | hlen | ⟨as, bs, rfl, has, hbs⟩
  · apply Reads.alt_left
    rw [← hlen]
    exact reads_times hhs
  · apply Reads.alt_right (rejects_times hhs hvs (by omega))
    apply Reads.alt_left
    rw [← hlen]
    exact reads_times hhs
  · have hshort : (as ++ bs).length ≤ 4 := by
      rw [List.length_append]
      omega
    apply Reads.alt_right (rejects_times hhs hvs (by omega))
    apply Reads.alt_right (rejects_times hhs hvs (by omega))
    rw [List.forall_mem_append] at hhs
    rw [← has]
    apply (reads_times hhs.1).seq
    cases bs with
    | nil => exact reads_opt_nil (rejects_one hvs)
    | cons c bs =>
      cases bs with
      | nil => exact .alt_left (reads_one (hhs.2 c List.mem_cons_self))
      | cons d bs =>
        rw [List.length_cons, List.length_cons] at hbs
        omega

/-- What was read last is a digit, and so a word character. -/
theorem isWordChar_last {before hs : List Char} (hne : hs ≠ [])
    (hhs : ∀ c ∈ hs, hexDigit.contains c = true) :
    (hs.reverse ++ before).head?.any Text.isWordChar = true := by
  obtain ⟨c, cs, hrev⟩ := List.exists_cons_of_ne_nil (mt List.reverse_eq_nil_iff.1 hne)
  have hc : c ∈ hs := by
    rw [← List.mem_reverse, hrev]
    exact List.mem_cons_self
  rw [hrev]
  exact isWordChar_of_hexDigit (hhs c hc)

/-- The three or four digits of the third form are three and perhaps one more. -/
theorem colorLength_iff {hs : List Char} : hs.length ∈ [3, 4, 6, 8] ↔
    hs.length = 8 ∨ hs.length = 6 ∨ ∃ as bs, hs = as ++ bs ∧ as.length = 3 ∧ bs.length ≤ 1 := by
  constructor
  · intro h
    simp only [List.mem_cons, List.not_mem_nil, or_false] at h
    by_cases hshort : hs.length ≤ 4
    · refine .inr (.inr ⟨hs.take 3, hs.drop 3, (List.take_append_drop 3 hs).symm, ?_, ?_⟩)
      · rw [List.length_take]
        omega
      · rw [List.length_drop]
        omega
    · omega
  · rintro (h | h | ⟨as, bs, rfl, has, hbs⟩)
    · simp [h]
    · simp [h]
    · rw [List.length_append, has]
      rcases Nat.le_one_iff_eq_zero_or_eq_one.1 hbs with h | h
      · simp [h]
      · simp [h]

theorem reads_hash {hs : List Char} (hhs : ∀ c ∈ hs, hexDigit.contains c = true)
    (hlen : hs.length ∈ [3, 4, 6, 8])
    (hvs : vs.head?.any Text.isWordChar = false) : colorHash.Reads [] ('#' :: hs) vs := by
  have hhex : vs.head?.any hexDigit.contains = false := by
    cases vs with
    | nil => rfl
    | cons c vs =>
      have hc : Text.isWordChar c = false := hvs
      exact Bool.eq_false_iff.2 fun h => absurd (isWordChar_of_hexDigit h) (Bool.eq_false_iff.1 hc)
  have hdigits : Pattern.Reads _ ['#'] hs vs := reads_hexDigits hhs (colorLength_iff.1 hlen) hhex
  have hne : hs ≠ [] := by
    rintro rfl
    simp at hlen
  have hedge : Text.Reading.atWordEdge ⟨hs.reverse ++ ['#'], vs⟩ = true := by
    unfold Text.Reading.atWordEdge
    rw [isWordChar_last hne hhs, hvs]
    rfl
  have hrest := hdigits.seq (reads_wordEdge hedge)
  rw [List.append_nil] at hrest
  exact reads_char.seq hrest

theorem reads_colorHash (h : Derives rule colorHash.phrase us)
    (hvs : vs.head?.any Text.isWordChar = false) : colorHash.Reads [] us vs := by
  obtain ⟨hs, rfl, hhs, hlen⟩ := exists_of_derives_colorHash h
  exact reads_hash hhs (colorLength_iff.2 hlen) hvs

theorem rejects_colorHash (h : vs.head? ≠ some '#') : colorHash.Rejects [] vs :=
  (rejects_char h).seq

end Tokens

end RankedGrammar
