import RankedGrammar.Proofs.Grammar.Tokens
import RankedGrammar.Proofs.Match.Frame
import RankedGrammar.Proofs.Match.Terminal

/-!
What the tokens are. Identifiers, numbers and comments are the longest texts of their languages that
the rest of the source begins with. Of strings there is at most one that it begins with, and a colour
is a number sign with the whole word after it. A token that does not match leaves its node alone.
-/
namespace RankedGrammar
open Text (CharClass Pattern)

/-- The tokens that a pattern tells. -/
inductive Token where
  | ident
  | number
  | comment
  | stringLit
  | colorHash
deriving DecidableEq

namespace Token

def name : Token → String
  | ident => "IDENT"
  | number => "NUMBER"
  | comment => "COMMENT"
  | stringLit => "STRING_LIT"
  | colorHash => "COLOR_HASH"

def pattern : Token → Pattern
  | ident => Tokens.ident
  | number => Tokens.number
  | comment => Tokens.comment
  | stringLit => Tokens.stringLit
  | colorHash => Tokens.colorHash

theorem rules_get? (t : Token) : Tokens.rules.get? t.name = some (.pattern t.pattern) := by
  cases t <;> rfl

variable {us vs cs : List Char} {p : Char → Bool}

/-- A letter or an underscore, and then letters, digits and underscores. -/
def Ident (cs : List Char) : Prop :=
  ∃ c ds, cs = c :: ds ∧ (c.isAlpha ∨ c = '_') ∧ ∀ d ∈ ds, d.isAlphanum ∨ d = '_'

/-- Digits, or digits that may be none, a point and digits. -/
def Number (cs : List Char) : Prop :=
  ∃ ds fs, (∀ c ∈ ds, c.isDigit) ∧ (∀ c ∈ fs, c.isDigit) ∧
    (ds ≠ [] ∧ cs = ds ∨ fs ≠ [] ∧ cs = ds ++ '.' :: fs)

/-- Two slashes and then no line feed. -/
def Comment (cs : List Char) : Prop := ∃ ds, cs = '/' :: '/' :: ds ∧ '\n' ∉ ds

/-- A character other than a quote, a backslash and a line feed, or a backslash and a character
other than a line feed. -/
def StringItem (cs : List Char) : Prop :=
  (∃ c, cs = [c] ∧ c ≠ '"' ∧ c ≠ '\\' ∧ c ≠ '\n') ∨ ∃ c, cs = ['\\', c] ∧ c ≠ '\n'

/-- Such items between two quotes. -/
def StringLit (cs : List Char) : Prop :=
  ∃ items : List (List Char), (∀ x ∈ items, StringItem x) ∧ cs = '"' :: (items.flatten ++ ['"'])

def isHex (c : Char) : Bool := c.isDigit || ('a' ≤ c && c ≤ 'f') || ('A' ≤ c && c ≤ 'F')

/-- The text begins with a number sign and a word of three, four, six or eight hexadecimal digits.
-/
def ColorHash (cs us : List Char) : Prop :=
  ∃ ds, cs = '#' :: ds ∧ us = '#' :: ds.takeWhile Text.isWordChar ∧
    (∀ c ∈ ds.takeWhile Text.isWordChar, isHex c) ∧
    (ds.takeWhile Text.isWordChar).length ∈ [3, 4, 6, 8]

/-- A text begins with one of the language, and with none that is longer. -/
def Longest (L : List Char → Prop) (cs us : List Char) : Prop :=
  us <+: cs ∧ L us ∧ ∀ vs, vs <+: cs → L vs → vs.length ≤ us.length

/-- A text begins with one of the language, and with no other. -/
def Only (L : List Char → Prop) (cs us : List Char) : Prop :=
  us <+: cs ∧ L us ∧ ∀ vs, vs <+: cs → L vs → vs = us

/-- The text begins with the token. -/
def Opens : Token → List Char → Prop
  | ident, cs => ∃ us, us <+: cs ∧ Ident us
  | number, cs => ∃ us, us <+: cs ∧ Number us
  | comment, cs => ∃ us, us <+: cs ∧ Comment us
  | stringLit, cs => ∃ us, us <+: cs ∧ StringLit us
  | colorHash, cs => ∃ us, ColorHash cs us

/-- Of the text the token is `us`. -/
def Takes : Token → List Char → List Char → Prop
  | ident => Longest Ident
  | number => Longest Number
  | comment => Longest Comment
  | stringLit => Only StringLit
  | colorHash => ColorHash

section Classes

variable (c : Char)

theorem char_eq_iff {c d : Char} : c = d ↔ c.val.toNat = d.val.toNat := by
  rw [Char.ext_iff, UInt32.toNat_inj]

theorem contains_digit : Tokens.digit.contains c = c.isDigit := by
  simp [Tokens.digit, CharClass.contains, Char.isDigit, Char.le_def]

theorem contains_hexDigit : Tokens.hexDigit.contains c = isHex c := by
  simp [Tokens.hexDigit, CharClass.contains, isHex, Char.isDigit, Char.le_def, Bool.or_assoc]

theorem isAlpha_iff : c.isAlpha ↔ 'A' ≤ c ∧ c ≤ 'Z' ∨ 'a' ≤ c ∧ c ≤ 'z' := by
  have hranges : c.isAlpha = (decide ('A' ≤ c ∧ c ≤ 'Z') || 'a' ≤ c && c ≤ 'z') := rfl
  simp [hranges]

theorem contains_identStart : Tokens.identStart.contains c ↔ c.isAlpha ∨ c = '_' := by
  rw [isAlpha_iff]
  simp [Tokens.identStart, CharClass.contains, Char.le_def, UInt32.le_iff_toNat_le, char_eq_iff]
  omega

theorem contains_identPart : Tokens.identPart.contains c ↔ c.isAlphanum ∨ c = '_' := by
  rw [Char.isAlphanum, Bool.or_eq_true, isAlpha_iff]
  simp [Tokens.identPart, CharClass.contains, Char.isDigit, Char.le_def, UInt32.le_iff_toNat_le,
    char_eq_iff]
  omega

theorem contains_notLineFeed : CharClass.notLineFeed.contains c ↔ c ≠ '\n' := by
  simp only [CharClass.notLineFeed, CharClass.contains, List.any_cons, List.any_nil, Bool.or_false,
    Bool.bne_true, Bool.not_eq_true', Bool.and_eq_false_iff, decide_eq_false_iff_not, Char.le_def,
    UInt32.le_iff_toNat_le, ne_eq, char_eq_iff]
  omega

theorem contains_stringChar : CharClass.contains
    { ranges := [('"', '"'), ('\\', '\\'), ('\n', '\n')], negated := true } c ↔
      c ≠ '"' ∧ c ≠ '\\' ∧ c ≠ '\n' := by
  simp only [CharClass.contains, List.any_cons, List.any_nil, Bool.or_false, Bool.bne_true,
    Bool.not_eq_true', Bool.and_eq_false_iff, Bool.or_eq_false_iff, decide_eq_false_iff_not,
    Char.le_def, UInt32.le_iff_toNat_le, ne_eq, char_eq_iff]
  omega

end Classes

/-- A text in its run of characters of a kind and what comes after it. -/
theorem exists_run (p : Char → Bool) (cs : List Char) : ∃ us vs, cs = us ++ vs ∧
    (∀ c ∈ us, p c = true) ∧ vs.head?.any p = false := by
  refine ⟨cs.takeWhile p, cs.dropWhile p, List.takeWhile_append_dropWhile.symm,
    List.all_eq_true.1 List.all_takeWhile, ?_⟩
  induction cs with
  | nil => rfl
  | cons c cs ih =>
    by_cases hc : p c = true
    · rwa [List.dropWhile_cons_of_pos hc]
    · rw [List.dropWhile_cons_of_neg hc]
      exact Bool.eq_false_iff.2 hc

theorem takeWhile_append (hus : ∀ c ∈ us, p c = true) (hvs : vs.head?.any p = false) :
    (us ++ vs).takeWhile p = us := by
  have hnone : vs.takeWhile p = [] := by
    cases vs with
    | nil => rfl
    | cons c vs => exact List.takeWhile_cons_of_neg (Bool.eq_false_iff.1 hvs)
  rw [List.takeWhile_append_of_pos hus, hnone, List.append_nil]

/-- What begins with characters of a kind has them all in its run. -/
theorem prefix_takeWhile (hus : ∀ c ∈ us, p c = true) (h : us <+: cs) : us <+: cs.takeWhile p := by
  obtain ⟨rest, rfl⟩ := h
  rw [List.takeWhile_append_of_pos hus]
  exact List.prefix_append us _

/-- A run of characters of a kind is the longest. -/
theorem prefix_of_run {ws : List Char} (hus : ∀ c ∈ us, p c = true) (hvs : vs.head?.any p = false)
    (hws : ∀ c ∈ ws, p c = true) (h : ws <+: us ++ vs) : ws <+: us := by
  have hrun := prefix_takeWhile hws h
  rwa [takeWhile_append hus hvs] at hrun

theorem run_unique {us' vs' : List Char} (hus : ∀ c ∈ us, p c = true)
    (hvs : vs.head?.any p = false) (hus' : ∀ c ∈ us', p c = true) (hvs' : vs'.head?.any p = false)
    (h : us' ++ vs' = us ++ vs) : us' = us ∧ vs' = vs := by
  have hrun : us' = us := by rw [← takeWhile_append hus' hvs', h, takeWhile_append hus hvs]
  subst hrun
  exact ⟨rfl, List.append_cancel_left h⟩

section Patterns

/-- The rules of a grammar without symbols. -/
def noRules : Empty → Phrase Empty := nofun

/-- What a pattern matches at the start of a text begins the text and is of the pattern's language.
-/
theorem prefix_and_derives (q : Pattern) (h : q.match? cs = some us) :
    us <+: cs ∧ Phrase.Derives noRules q.phrase us :=
  ⟨Text.Pattern.isPrefix_of_match? h, Text.Pattern.derives_of_match? h⟩

theorem ident_iff : Ident us ↔ Phrase.Derives noRules Tokens.ident.phrase us := by
  rw [Tokens.derives_ident]
  simp only [contains_identStart, contains_identPart]
  rfl

theorem match?_ident (h : ∃ us, us <+: cs ∧ Ident us) :
    ∃ us, Tokens.ident.match? cs = some us ∧ Longest Ident cs us := by
  obtain ⟨_, ⟨rest, rfl⟩, c, es, rfl, hc, -⟩ := h
  obtain ⟨ds, vs, hrest, hds, hvs⟩ := exists_run Tokens.identPart.contains (es ++ rest)
  have hident : Ident (c :: ds) := ⟨c, ds, rfl, hc, fun d hd => (contains_identPart d).1 (hds d hd)⟩
  have hcs : c :: es ++ rest = c :: ds ++ vs := congrArg (c :: ·) hrest
  rw [hcs]
  refine ⟨c :: ds, Text.Pattern.match?_of_reads (Tokens.reads_ident (ident_iff.1 hident) hvs),
    List.prefix_append _ _, hident, ?_⟩
  rintro _ hbegins ⟨c', ws, rfl, -, hws⟩
  have hrun := prefix_of_run hds hvs (fun d hd => (contains_identPart d).2 (hws d hd))
    (List.cons_prefix_cons.1 hbegins).2
  exact Nat.succ_le_succ hrun.length_le

theorem comment_iff : Comment us ↔ Phrase.Derives noRules Tokens.comment.phrase us := by
  rw [Tokens.comment, Text.Pattern.phrase, Text.Pattern.phrase, Text.Pattern.phrase,
    Text.Pattern.phrase]
  simp only [Phrase.derives_pair, Text.Pattern.derives_char, Phrase.derives_many_one,
    contains_notLineFeed]
  constructor
  · rintro ⟨ds, rfl, hds⟩
    exact ⟨['/'], _, rfl, ⟨['/'], ds, rfl, fun c hc heq => hds (heq ▸ hc), rfl⟩, rfl⟩
  · rintro ⟨_, _, rfl, ⟨_, ds, rfl, hds, rfl⟩, rfl⟩
    exact ⟨ds, rfl, fun hmem => hds _ hmem rfl⟩

theorem match?_comment (h : ∃ us, us <+: cs ∧ Comment us) :
    ∃ us, Tokens.comment.match? cs = some us ∧ Longest Comment cs us := by
  obtain ⟨_, ⟨rest, rfl⟩, es, rfl, -⟩ := h
  obtain ⟨ds, vs, hrest, hds, hvs⟩ := exists_run CharClass.notLineFeed.contains (es ++ rest)
  have hcomment : Comment ('/' :: '/' :: ds) :=
    ⟨ds, rfl, fun hmem => (contains_notLineFeed _).1 (hds _ hmem) rfl⟩
  have hcs : '/' :: '/' :: es ++ rest = '/' :: '/' :: ds ++ vs :=
    congrArg (fun cs => '/' :: '/' :: cs) hrest
  have hreads : Tokens.comment.Reads [] ('/' :: '/' :: ds) vs :=
    Text.Pattern.reads_char.seq (Text.Pattern.reads_char.seq (Text.Pattern.reads_star_one hds hvs))
  rw [hcs]
  refine ⟨_, Text.Pattern.match?_of_reads hreads, List.prefix_append _ _, hcomment, ?_⟩
  rintro _ hbegins ⟨ws, rfl, hws⟩
  have hrest := (List.cons_prefix_cons.1 (List.cons_prefix_cons.1 hbegins).2).2
  have hrun := prefix_of_run hds hvs
    (fun d hd => (contains_notLineFeed d).2 fun heq => hws (heq ▸ hd)) hrest
  exact Nat.succ_le_succ (Nat.succ_le_succ hrun.length_le)

theorem number_iff : Number us ↔ Phrase.Derives noRules Tokens.number.phrase us := by
  rw [Tokens.derives_number]
  simp only [contains_digit]
  constructor
  · rintro ⟨ds, fs, hds, hfs, ⟨hne, rfl⟩ | ⟨hne, rfl⟩⟩
    · exact ⟨us, [], (List.append_nil us).symm, hds, hne, .inl rfl⟩
    · exact ⟨ds, '.' :: fs, rfl, hds, by simp, .inr ⟨fs, rfl, hne, hfs⟩⟩
  · rintro ⟨ds, _, rfl, hds, hne, rfl | ⟨fs, rfl, hfs, hfrac⟩⟩
    · rw [List.append_nil] at hne ⊢
      exact ⟨ds, [], hds, by simp, .inl ⟨hne, rfl⟩⟩
    · exact ⟨ds, fs, hds, hfrac, .inr ⟨hfs, rfl⟩⟩

/-- A text begins with a point and a run of digits. -/
def Fraction (vs fs tl : List Char) : Prop :=
  vs = '.' :: (fs ++ tl) ∧ fs ≠ [] ∧ (∀ c ∈ fs, c.isDigit = true) ∧
    tl.head?.any Char.isDigit = false

theorem exists_fraction_or (vs : List Char) : (∃ fs tl, Fraction vs fs tl) ∨
    ∀ tl, vs = '.' :: tl → tl.head?.any Char.isDigit = false := by
  cases vs with
  | nil => exact .inr nofun
  | cons c rest =>
    obtain ⟨fs, tl, rfl, hfs, htl⟩ := exists_run Char.isDigit rest
    by_cases hfraction : c = '.' ∧ fs ≠ []
    · exact .inl ⟨fs, tl, by rw [hfraction.1], hfraction.2, hfs, htl⟩
    · refine .inr fun tl' heq => ?_
      obtain ⟨rfl, rfl⟩ := List.cons.inj heq
      obtain rfl : fs = [] := by_contra fun hne => hfraction ⟨rfl, hne⟩
      exact htl

/-- A number at the start of a run of digits lies in the run, or it takes the run and a fraction. -/
theorem number_prefix {ds ws : List Char} (hds : ∀ c ∈ ds, c.isDigit = true)
    (hvs : vs.head?.any Char.isDigit = false) (hws : Number ws) (h : ws <+: ds ++ vs) :
    ws <+: ds ∨ ∃ gs rest, ws = ds ++ '.' :: gs ∧ gs ≠ [] ∧ (∀ c ∈ gs, c.isDigit = true) ∧
      vs = '.' :: (gs ++ rest) := by
  obtain ⟨es, gs, hes, hgs, ⟨-, rfl⟩ | ⟨hne, rfl⟩⟩ := hws
  · exact .inl (prefix_of_run hds hvs hes h)
  · obtain ⟨rest, hrest⟩ := h
    rw [List.append_assoc] at hrest
    obtain ⟨rfl, rfl⟩ := run_unique hds hvs hes rfl hrest
    exact .inr ⟨gs, rest, rfl, hne, hgs, rfl⟩

theorem number_ne_nil (h : Number us) : us ≠ [] := by
  obtain ⟨ds, fs, -, -, ⟨hne, rfl⟩ | ⟨-, rfl⟩⟩ := h
  · exact hne
  · simp

theorem rejects_fraction {before : List Char}
    (h : ∀ tl, vs = '.' :: tl → tl.head?.any Char.isDigit = false) :
    (Pattern.seq (.char '.') (.plus (.one Tokens.digit))).Rejects before vs := by
  by_cases hpoint : vs.head? = some '.'
  · obtain ⟨tl, rfl⟩ := List.head?_eq_some_iff.1 hpoint
    have htl : tl.head?.any Tokens.digit.contains = false := by
      rw [funext contains_digit]
      exact h tl rfl
    exact Text.Pattern.rejects_seq_one (CharClass.contains_ofChar.2 rfl)
      (Text.Pattern.rejects_one htl).seq
  · exact (Text.Pattern.rejects_char hpoint).seq

theorem reads_decimal {ds fs tl : List Char} (hds : ∀ c ∈ ds, Tokens.digit.contains c = true)
    (hne : fs ≠ []) (hfs : ∀ c ∈ fs, Tokens.digit.contains c = true)
    (htl : tl.head?.any Tokens.digit.contains = false) :
    Tokens.number.Reads [] (ds ++ '.' :: fs) tl := by
  by_cases hnil : ds = []
  · subst hnil
    exact .alt_right (Text.Pattern.rejects_one rfl).seq.seq (Tokens.reads_fraction hne hfs htl)
  · exact .alt_left ((Text.Pattern.reads_plus_one hnil hds rfl).seq
      (.alt_left (Tokens.reads_fraction hne hfs htl)))

theorem reads_integer {ds : List Char} (hne : ds ≠ [])
    (hds : ∀ c ∈ ds, Tokens.digit.contains c = true)
    (hvs : vs.head?.any Tokens.digit.contains = false)
    (hpoint : ∀ tl, vs = '.' :: tl → tl.head?.any Char.isDigit = false) :
    Tokens.number.Reads [] ds vs := by
  have hdigits : (Pattern.plus (.one Tokens.digit)).Reads [] ds ([] ++ vs) :=
    Text.Pattern.reads_plus_one hne hds hvs
  have hreads : Tokens.number.Reads [] (ds ++ []) vs :=
    .alt_left (hdigits.seq (Text.Pattern.reads_opt_nil (rejects_fraction hpoint)))
  rwa [List.append_nil] at hreads

/-- A run of digits and a fraction, whose digits are a run as well, are the longest number. -/
theorem longest_decimal {ds fs tl : List Char} (hds : ∀ c ∈ ds, c.isDigit = true)
    (hfraction : Fraction vs fs tl) : Longest Number (ds ++ vs) (ds ++ '.' :: fs) := by
  obtain ⟨rfl, hne, hfs, htl⟩ := hfraction
  refine ⟨⟨tl, by simp⟩, ⟨ds, fs, hds, hfs, .inr ⟨hne, rfl⟩⟩, fun ws hbegins hws => ?_⟩
  obtain hws | ⟨gs, rest, rfl, -, hgs, hrest⟩ := number_prefix hds rfl hws hbegins
  · exact Nat.le_trans hws.length_le (List.prefix_append _ _).length_le
  · have hrun : gs <+: fs := prefix_of_run hfs htl hgs ⟨rest, (List.cons.inj hrest).2.symm⟩
    have hle := hrun.length_le
    simpa using hle

/-- Without a fraction after the run of digits, a number at the start lies in the run. -/
theorem number_prefix_digits {ds ws : List Char} (hds : ∀ c ∈ ds, c.isDigit = true)
    (hvs : vs.head?.any Char.isDigit = false)
    (hpoint : ∀ tl, vs = '.' :: tl → tl.head?.any Char.isDigit = false) (hws : Number ws)
    (h : ws <+: ds ++ vs) : ws <+: ds := by
  obtain hws | ⟨gs, rest, -, hne, hgs, rfl⟩ := number_prefix hds hvs hws h
  · exact hws
  · obtain ⟨g, gs, rfl⟩ := List.exists_cons_of_ne_nil hne
    have hdigit : g.isDigit = false := hpoint _ rfl
    rw [hgs g List.mem_cons_self] at hdigit
    cases hdigit

theorem match?_number (h : ∃ us, us <+: cs ∧ Number us) :
    ∃ us, Tokens.number.match? cs = some us ∧ Longest Number cs us := by
  obtain ⟨ds, vs, rfl, hds, hvs⟩ := exists_run Char.isDigit cs
  have hdigits := hds
  simp only [← contains_digit] at hdigits
  rcases exists_fraction_or vs with ⟨fs, tl, hfraction⟩ | hpoint
  · obtain ⟨rfl, hne, hfs, htl⟩ := hfraction
    have hreads : Tokens.number.Reads [] (ds ++ '.' :: fs) tl := by
      refine reads_decimal hdigits hne ?_ ?_
      · simpa only [contains_digit] using hfs
      · rwa [funext contains_digit]
    have hmatch := Text.Pattern.match?_of_reads hreads
    rw [List.append_assoc, List.cons_append] at hmatch
    exact ⟨_, hmatch, longest_decimal hds ⟨rfl, hne, hfs, htl⟩⟩
  · have hall : ∀ ws, Number ws → ws <+: ds ++ vs → ws <+: ds :=
      fun _ => number_prefix_digits hds hvs hpoint
    obtain ⟨us, hbegins, hus⟩ := h
    have hne : ds ≠ [] := by
      rintro rfl
      exact number_ne_nil hus (List.prefix_nil.1 (hall us hus hbegins))
    have hreads : Tokens.number.Reads [] ds vs := by
      refine reads_integer hne hdigits ?_ hpoint
      rwa [funext contains_digit]
    exact ⟨ds, Text.Pattern.match?_of_reads hreads, List.prefix_append _ _,
      ⟨ds, [], hds, by simp, .inl ⟨hne, rfl⟩⟩,
      fun ws hbegins hws => (hall ws hws hbegins).length_le⟩

theorem stringItem_iff : StringItem us ↔ Phrase.Derives noRules Tokens.stringItem.phrase us := by
  rw [Tokens.stringItem, Text.Pattern.phrase, Phrase.derives_either, Text.Pattern.phrase,
    Text.Pattern.phrase, Phrase.derives_pair]
  simp only [Phrase.derives_one, Text.Pattern.derives_char, Text.Pattern.phrase,
    contains_stringChar, contains_notLineFeed]
  constructor
  · rintro (⟨c, rfl, hc⟩ | ⟨c, rfl, hc⟩)
    · exact .inl ⟨c, hc, rfl⟩
    · exact .inr ⟨['\\'], [c], rfl, ⟨c, hc, rfl⟩, rfl⟩
  · rintro (⟨c, hc, rfl⟩ | ⟨_, _, rfl, ⟨c, hc, rfl⟩, rfl⟩)
    · exact .inl ⟨c, rfl, hc⟩
    · exact .inr ⟨c, rfl, hc⟩

theorem stringLit_iff : StringLit us ↔ Phrase.Derives noRules Tokens.stringLit.phrase us := by
  rw [Tokens.derives_stringLit]
  simp only [← stringItem_iff]
  exact exists_congr fun _ => and_comm

/-- A string is read as soon as the text begins with it, so there can be no second one. -/
theorem match?_stringLit (h : ∃ us, us <+: cs ∧ StringLit us) :
    ∃ us, Tokens.stringLit.match? cs = some us ∧ Only StringLit cs us := by
  have hmatch : ∀ us, us <+: cs → StringLit us → Tokens.stringLit.match? cs = some us := by
    rintro us ⟨rest, rfl⟩ hus
    exact Text.Pattern.match?_of_reads (Tokens.reads_stringLit (stringLit_iff.1 hus))
  obtain ⟨us, hbegins, hus⟩ := h
  refine ⟨us, hmatch us hbegins hus, hbegins, hus, fun ws hws hstring => ?_⟩
  have hsame := (hmatch ws hws hstring).symm.trans (hmatch us hbegins hus)
  exact Option.some.inj hsame

theorem match?_colorHash (h : ColorHash cs us) : Tokens.colorHash.match? cs = some us := by
  obtain ⟨ds, rfl, rfl, hhex, hlen⟩ := h
  obtain ⟨hs, vs, rfl, hhs, hvs⟩ := exists_run Text.isWordChar ds
  rw [takeWhile_append hhs hvs] at *
  simp only [← contains_hexDigit] at hhex
  exact Text.Pattern.match?_of_reads (Tokens.reads_hash hhex hlen hvs)

theorem colorHash_of_match? (h : Tokens.colorHash.match? cs = some us) : ColorHash cs us := by
  obtain ⟨⟨vs, rfl⟩, hderives⟩ := prefix_and_derives _ h
  obtain ⟨hs, rfl, hhex, hlen⟩ := Tokens.exists_of_derives_colorHash hderives
  rw [← Tokens.colorLength_iff] at hlen
  have hne : hs ≠ [] := by
    rintro rfl
    simp at hlen
  have hvs : vs.head?.any Text.isWordChar = false := by
    obtain ⟨r, -, hrest⟩ := List.mem_flatMap.1 (Text.Pattern.mem_ends_of_match? h)
    have hedge := Text.Pattern.atWordEdge_of_mem_ends hrest
    rw [List.reverse_cons, Text.Reading.atWordEdge, Tokens.isWordChar_last hne hhex] at hedge
    simpa using hedge
  have hrun := takeWhile_append (fun c hc => Tokens.isWordChar_of_hexDigit (hhex c hc)) hvs
  refine ⟨hs ++ vs, rfl, by rw [hrun], ?_, ?_⟩
  · simpa only [hrun, contains_hexDigit] using hhex
  · rw [hrun]
    exact hlen

/-- A letter outside ASCII goes on with the word as well. -/
example : Tokens.colorHash.match? ['#', 'f', 'f', 'f', 'é'] = none := by decide +kernel

theorem opens_of_match? {t : Token} (h : t.pattern.match? cs = some us) : t.Opens cs := by
  obtain ⟨hbegins, hderives⟩ := prefix_and_derives _ h
  cases t with
  | ident => exact ⟨us, hbegins, ident_iff.2 hderives⟩
  | number => exact ⟨us, hbegins, number_iff.2 hderives⟩
  | comment => exact ⟨us, hbegins, comment_iff.2 hderives⟩
  | stringLit => exact ⟨us, hbegins, stringLit_iff.2 hderives⟩
  | colorHash => exact ⟨us, colorHash_of_match? h⟩

theorem match?_of_opens {t : Token} (h : t.Opens cs) :
    ∃ us, t.pattern.match? cs = some us ∧ t.Takes cs us := by
  cases t with
  | ident => exact match?_ident h
  | number => exact match?_number h
  | comment => exact match?_comment h
  | stringLit => exact match?_stringLit h
  | colorHash =>
    obtain ⟨us, hus⟩ := h
    exact ⟨us, match?_colorHash hus, hus⟩

theorem match?_of_not_opens {t : Token} (h : ¬ t.Opens cs) : t.pattern.match? cs = none := by
  cases hmatch : t.pattern.match? cs with
  | none => rfl
  | some us => exact absurd (opens_of_match? hmatch) h

end Patterns

end Token

/-- Without a fault the rule of a node ends as it said, and only that is noted on the node. -/
theorem RunState.leave_eq {id : NodeId} {s : RunState} (ok : Bool) (hid : id < s.tree.size)
    (hfault : s.fault = none) :
    (leave id (ok, s)).1 = ok ∧ (leave id (ok, s)).2.node id = { s.node id with matched := ok } ∧
      ∀ j ≠ id, (leave id (ok, s)).2.node j = s.node j := by
  unfold leave
  dsimp only
  rw [hfault, Option.isNone_none, Bool.and_true]
  refine ⟨rfl, ?_, fun j hj => ?_⟩
  · exact s.node_modify_self (fun n => { n with matched := ok }) hid
  · exact s.node_modify_of_ne (fun n => { n with matched := ok }) hj.symm

namespace Context
open Text (byteLength)

variable {ctx : Context} {left : Nat} {id : NodeId} {s : RunState} {body : Expr}

/-- A rule that is a terminal does to its node what the terminal does. -/
theorem attempt_own {f : Terminal} (left : Nat) (hid : id < s.tree.size) (hfault : s.fault = none)
    (hrule : ctx.rules.rule? (s.node id).name = some body)
    (hbody : body.step ctx (ctx.attempt left) id = Step.own id f) :
    (ctx.attempt (left + 1) id s).1 = (f (s.node id)).1 ∧
      (ctx.attempt (left + 1) id s).2.node id =
        { (f (s.node id)).2 with matched := (f (s.node id)).1 } ∧
      ∀ j ≠ id, (ctx.attempt (left + 1) id s).2.node j = s.node j := by
  let entered := s.enter id (ctx.limit - left)
  let worked := entered.modify id fun _ => (f (s.node id)).2
  have hattempt : ctx.attempt (left + 1) id s = RunState.leave id ((f (s.node id)).1, worked) := by
    rw [attempt_succ, hfault, Option.isSome_none, if_neg Bool.false_ne_true, hrule]
    dsimp only
    rw [hbody]
    rfl
  have hsize : id < worked.tree.size := by
    rw [RunState.size_modify]
    exact hid
  obtain ⟨hok, hnode, hother⟩ := RunState.leave_eq (f (s.node id)).1 hsize hfault
  rw [hattempt]
  refine ⟨hok, ?_, fun j hj => ?_⟩
  · rw [hnode, entered.node_modify_self _ hid]
  · rw [hother j hj, entered.node_modify_of_ne _ hj.symm]
    rfl

/-- The rule of a token, run where the cursor stands between two characters, matches exactly if what
is left of the source begins with the token. Then it takes the token and records what it takes; else
it takes and records nothing. -/
theorem token_exact {rest : List Char} (t : Token) (hid : id < s.tree.size)
    (hfault : s.fault = none)
    (hrule : ctx.rules.rule? (s.node id).name = Tokens.rules.get? t.name)
    (hrest : ctx.source.tail? (s.node id).point = some rest) :
    let out := ctx.attempt (left + 1) id s
    (out.1 = true ↔ t.Opens rest) ∧
      (t.Opens rest → ∃ us, t.Takes rest us ∧
        ctx.source.Spells (s.node id).point us (out.2.cursor id) ∧
        out.2.node id = { (s.node id).record (String.ofList us) with
          point := (s.node id).point + byteLength us, matched := true } ∧
        ((s.node id).literal = none → (out.2.node id).literal = some (String.ofList us))) ∧
      (¬ t.Opens rest → out.2.node id = { s.node id with matched := false }) ∧
      ∀ j ≠ id, out.2.node j = s.node j := by
  intro out
  rw [t.rules_get?] at hrule
  obtain ⟨hok, hnode, hother⟩ := attempt_own left hid hfault hrule
    (f := .pattern ctx.source t.pattern) rfl
  by_cases hopens : t.Opens rest
  · obtain ⟨us, hmatch, htakes⟩ := Token.match?_of_opens hopens
    obtain ⟨tl, rfl⟩ := Text.Pattern.isPrefix_of_match? hmatch
    have hspells : ctx.source.Spells (s.node id).point us ((s.node id).point + byteLength us) :=
      ⟨tl, hrest, rfl⟩
    have htaken : Terminal.pattern ctx.source t.pattern (s.node id) =
        (true, { (s.node id).record (String.ofList us) with
          point := (s.node id).point + byteLength us }) := by
      rw [Terminal.pattern, Terminal.takeRead_eq hrest, hmatch]
      dsimp only
      rw [Terminal.take, hspells.slice]
    rw [htaken] at hok hnode
    have hcursor : out.2.cursor id = (s.node id).point + byteLength us := congrArg Node.point hnode
    rw [hcursor]
    refine ⟨iff_of_true hok hopens, fun _ => ⟨us, htakes, hspells, hnode, fun hnone => ?_⟩,
      absurd hopens, hother⟩
    rw [hnode, Node.record, hnone, Option.getD_none, String.empty_append]
  · have hleft : Terminal.pattern ctx.source t.pattern (s.node id) = (false, s.node id) := by
      rw [Terminal.pattern, Terminal.takeRead_eq hrest, Token.match?_of_not_opens hopens]
    rw [hleft] at hok hnode
    refine ⟨iff_of_false ?_ hopens, (absurd · hopens), fun _ => hnode, hother⟩
    rw [hok]
    exact Bool.false_ne_true

/-- A number with a point that no digit follows. -/
def pointed : Context where
  source := .ofString "7."
  rules := .merge .empty Tokens.rules .empty

/-- The point is not part of the number. -/
theorem token_exact_pointed :
    let s := RunState.start pointed "NUMBER"
    let out := pointed.attempt 1 Tree.root s
    s.fault = none ∧ pointed.source.tail? (s.cursor Tree.root) = some ['7', '.'] ∧ out.1 = true ∧
      (∃ us, Token.Longest Token.Number ['7', '.'] us ∧
        (out.2.node Tree.root).literal = some (String.ofList us)) ∧
      (out.2.node Tree.root).literal = some "7" := by
  intro s out
  have hnumber : Token.number.Opens ['7', '.'] :=
    ⟨['7'], ⟨['.'], rfl⟩, ['7'], [], List.forall_mem_singleton.2 rfl, nofun,
      .inl ⟨List.cons_ne_nil _ _, rfl⟩⟩
  obtain ⟨hok, htakes, -⟩ := @token_exact pointed 0 Tree.root s ['7', '.'] .number (by decide)
    rfl rfl (by decide +kernel)
  obtain ⟨us, hlongest, -, -, hliteral⟩ := htakes hnumber
  exact ⟨rfl, by decide +kernel, hok.2 hnumber, ⟨us, hlongest, hliteral rfl⟩, by decide +kernel⟩

end Context

end RankedGrammar
