import RankedGrammar.Proofs.Grammar.Statements
import RankedGrammar.Proofs.Grammar.Tokens
import RankedGrammar.Proofs.Match.Outcome

/-!
One character ahead. A character begins at most one kind of term, and what stands after a part of a
statement cannot go on with a token of that part.
-/
namespace RankedGrammar
open Tokens (numberPart identStart identPart)

def Context.statements (source : Source) (limit : Nat) : Context where
  source
  rules := Language.statements.index
  limit

namespace Symbol

/-- The kind of term that begins with a character; a percentage begins like a number. -/
def opened (c : Char) : Option Symbol :=
  if numberPart c then some .number
  else if identStart.contains c then some .call
  else if c = '"' then some .stringLit
  else if c = '#' then some .colorHash
  else if c = '$' then some .var
  else if c = '(' then some .group
  else none

/-- The characters that stand after the tokens of terms. -/
def delimiters : List Char := blanks ++ ['=', '+', '-', '*', '/', ',', ';', ')']

theorem delimiters_spec {c : Char} (hc : c ∈ delimiters) : numberPart c = false ∧
    identPart.contains c = false ∧ Text.isWordChar c = false ∧ c ≠ '%' ∧ opened c = none := by
  have hall : (delimiters.all fun c => !numberPart c && (!identPart.contains c &&
      (!Text.isWordChar c && (c != '%' && opened c == none)))) = true := by decide +kernel
  simpa using List.all_eq_true.1 hall c hc

theorem opened_of_numberPart {c : Char} (h : numberPart c = true) : opened c = some .number :=
  if_pos h

theorem opened_of_identStart {c : Char} (h : identStart.contains c = true) :
    opened c = some .call := by
  have hnumber : numberPart c = false := by
    simp only [identStart, Text.CharClass.contains, List.any_cons, List.any_nil, Bool.or_false,
      Bool.bne_false, Bool.or_eq_true, Bool.and_eq_true, decide_eq_true_eq, Char.le_def,
      UInt32.le_iff_toNat_le] at h
    apply Bool.eq_false_iff.2
    intro hnumber
    simp only [numberPart, Tokens.digit, Text.CharClass.contains, List.any_cons, List.any_nil,
      Bool.or_false, Bool.bne_false, Bool.or_eq_true, Bool.and_eq_true, decide_eq_true_eq,
      Char.le_def, UInt32.le_iff_toNat_le, beq_iff_eq] at hnumber
    have hlow : ('9' : Char).val.toNat < ('A' : Char).val.toNat := by decide
    have hupper : ('A' : Char).val.toNat ≤ ('a' : Char).val.toNat := by decide
    have hline : ('A' : Char).val.toNat ≤ ('_' : Char).val.toNat := by decide
    have hpoint : ('.' : Char).val.toNat < ('A' : Char).val.toNat := by decide
    rcases hnumber with hnumber | rfl
    · omega
    · omega
  unfold opened
  rw [hnumber, h]
  rfl

theorem mem_blanks {c : Char} (h : blank.contains c = true) : c ∈ blanks := by
  simp only [blank, Text.CharClass.contains, Bool.bne_false, List.any_map, List.any_eq_true,
    Function.comp_apply, Bool.and_eq_true, decide_eq_true_eq] at h
  obtain ⟨d, hd, hle, hge⟩ := h
  exact Char.le_antisymm hge hle ▸ hd

theorem mem_delimiters_of_blank {c : Char} (h : blank.contains c = true) : c ∈ delimiters :=
  List.mem_append_left _ (mem_blanks h)

/-- Blanks, then one of the stops. -/
def Ahead (stops : List Char) (vs : List Char) : Prop :=
  ∃ ws c rest, vs = ws ++ c :: rest ∧ (∀ w ∈ ws, blank.contains w = true) ∧ c ∈ stops

variable {stops stops' vs xs : List Char}

theorem Ahead.append (h : Ahead stops xs) (vs : List Char) : Ahead stops (xs ++ vs) := by
  obtain ⟨ws, c, rest, rfl, hws, hc⟩ := h
  exact ⟨ws, c, rest ++ vs, by simp, hws, hc⟩

theorem Ahead.mono (h : Ahead stops vs) (hsub : stops ⊆ stops') : Ahead stops' vs := by
  obtain ⟨ws, c, rest, rfl, hws, hc⟩ := h
  exact ⟨ws, c, rest, rfl, hws, hsub hc⟩

/-- The first piece decides, or what follows if there is none. -/
theorem Ahead.flatten {pieces : List (List Char)} (hvs : Ahead stops vs)
    (hpieces : ∀ x ∈ pieces, Ahead stops x) : Ahead stops (pieces.flatten ++ vs) := by
  cases pieces with
  | nil => exact hvs
  | cons x pieces =>
    rw [List.flatten_cons, List.append_assoc]
    exact (hpieces x List.mem_cons_self).append _

/-- Some delimiter comes first. -/
theorem Ahead.head? (h : Ahead stops vs) (hsub : stops ⊆ delimiters) :
    ∃ c rest, vs = c :: rest ∧ c ∈ delimiters := by
  obtain ⟨ws, c, rest, rfl, hws, hc⟩ := h
  cases ws with
  | nil => exact ⟨c, rest, rfl, hsub hc⟩
  | cons w ws =>
    exact ⟨w, ws ++ c :: rest, rfl, mem_delimiters_of_blank (hws w List.mem_cons_self)⟩

/-- What a rule of the language does at a text. -/
abbrev Yields (source : Source) (limit : Nat) (s : Symbol) (cs : List Char)
    (r : Option (List Char)) : Prop :=
  (Expr.ref (Grammar.statements.name s)).Leaves (.statements source limit) cs r

variable {source : Source} {limit : Nat} {s : Symbol} {us ws : List Char}

theorem yields_of_body {body : Expr} {cs : List Char} {r : Option (List Char)} (i : Nat)
    (hrule : (Language.statementTable ++ Tokens.table)[i]? =
      some (Grammar.statements.name s, body))
    (h : body.Leaves (.statements source limit) cs r) : s.Yields source limit cs r :=
  Expr.leaves_ref (Language.rule?_statements i hrule) h

theorem literal_statements :
    (Context.statements source limit).rules.rule? literalName = some .attached :=
  Language.rule?_statements 15 rfl

theorem holds_of_blank {c : Char} (h : blank.contains c = true) :
    Tokens.whitespace.holds c = true :=
  List.all_eq_true.1 (by decide +kernel : blanks.all Tokens.whitespace.holds = true) c (mem_blanks h)

theorem yields_whitespace (hws : ∀ w ∈ ws, blank.contains w = true)
    (hvs : vs.head?.any blank.contains = false) :
    whitespace.Yields source limit (ws ++ vs) (some vs) := by
  have hend : vs.head?.any Tokens.whitespace.holds = false := by
    cases vs with
    | nil => rfl
    | cons c vs =>
      have hc : blank.contains c = false := hvs
      exact Bool.eq_false_iff.2 fun h => Bool.eq_false_iff.1 hc (Language.blank_of_holds h)
  apply yields_of_body 19 rfl
  exact Expr.leaves_bytes (ByteClass.ascii_of_ranges (by decide))
    (fun w hw => holds_of_blank (hws w hw)) hend

theorem yields_number (h : Grammar.statements.Derives (.symbol .number) us)
    (hvs : vs.head?.any numberPart = false) : number.Yields source limit (us ++ vs) (some vs) := by
  apply yields_of_body 23 rfl
  exact Expr.leaves_pattern (Tokens.reads_number (Grammar.derives_symbol.1 h) hvs)

theorem yields_ident (h : Grammar.statements.Derives (.symbol .ident) us)
    (hvs : vs.head?.any identPart.contains = false) :
    ident.Yields source limit (us ++ vs) (some vs) := by
  apply yields_of_body 22 rfl
  exact Expr.leaves_pattern (Tokens.reads_ident (Grammar.derives_symbol.1 h) hvs)

theorem yields_stringLit (h : Grammar.statements.Derives (.symbol .stringLit) us) :
    stringLit.Yields source limit (us ++ vs) (some vs) := by
  apply yields_of_body 24 rfl
  exact Expr.leaves_pattern (Tokens.reads_stringLit (Grammar.derives_symbol.1 h))

theorem yields_colorHash (h : Grammar.statements.Derives (.symbol .colorHash) us)
    (hvs : vs.head?.any Text.isWordChar = false) :
    colorHash.Yields source limit (us ++ vs) (some vs) := by
  apply yields_of_body 25 rfl
  exact Expr.leaves_pattern (Tokens.reads_colorHash (Grammar.derives_symbol.1 h) hvs)

theorem yields_operator {c : Char} (hc : c ∈ ['+', '-', '*', '/']) :
    operator.Yields source limit (c :: vs) (some vs) := by
  have hholds : (ByteClass.ofList ("+-*/".toList.map Tokens.ascii)).holds c = true := by
    simp only [List.mem_cons, List.not_mem_nil, or_false] at hc
    rcases hc with rfl | rfl | rfl | rfl <;> decide +kernel
  apply yields_of_body 12 rfl
  exact Expr.leaves_byte (ByteClass.ascii_of_ranges (by decide)) hholds

theorem yields_statementEnd : statementEnd.Yields source limit (';' :: vs) (some vs) := by
  apply yields_of_body 13 rfl
  exact Expr.leaves_byte (ByteClass.ascii_of_ranges (by decide)) (by decide)

theorem head?_any_eq_false {p : Char → Bool} (hp : ∀ c, p c = true → opened c = some s)
    (hvs : vs.head?.bind opened ≠ some s) : vs.head?.any p = false := by
  cases vs with
  | nil => rfl
  | cons c vs => exact Bool.eq_false_iff.2 fun hc => hvs (hp c hc)

theorem not_prefix_of_head? {c : Char} (hc : opened c = some s)
    (hvs : vs.head?.bind opened ≠ some s) : ¬ [c] <+: vs := by
  rintro ⟨rest, rfl⟩
  exact hvs hc

/-- The kinds of terms, but for percentages. -/
def kinds : List Symbol := [number, stringLit, colorHash, call, var, group]

/-- A term of a kind needs a character that begins it. -/
theorem yields_none (hs : s ∈ kinds) (hvs : vs.head?.bind opened ≠ some s) :
    s.Yields source limit vs none := by
  simp only [kinds, List.mem_cons, List.not_mem_nil, or_false] at hs
  rcases hs with rfl | rfl | rfl | rfl | rfl | rfl
  · apply yields_of_body 23 rfl
    apply Expr.leaves_pattern_none
    exact Tokens.rejects_number (head?_any_eq_false (fun c => opened_of_numberPart) hvs)
  · apply yields_of_body 24 rfl
    apply Expr.leaves_pattern_none
    apply Tokens.rejects_stringLit
    intro hhead
    rw [hhead] at hvs
    exact hvs rfl
  · apply yields_of_body 25 rfl
    apply Expr.leaves_pattern_none
    apply Tokens.rejects_colorHash
    intro hhead
    rw [hhead] at hvs
    exact hvs rfl
  · have hident : ident.Yields source limit vs none := by
      apply yields_of_body 22 rfl
      apply Expr.leaves_pattern_none
      exact Tokens.rejects_ident (head?_any_eq_false (fun c => opened_of_identStart) hvs)
    exact yields_of_body 9 rfl (Expr.leaves_seq_fail hident)
  · have hdollar : (Expr.lit "$").Leaves (.statements source limit) vs none :=
      Expr.leaves_lit_none literal_statements (by decide) (not_prefix_of_head? rfl hvs)
    exact yields_of_body 3 rfl (Expr.leaves_seq_fail hdollar)
  · have hparen : (Expr.lit "(").Leaves (.statements source limit) vs none :=
      Expr.leaves_lit_none literal_statements (by decide) (not_prefix_of_head? rfl hvs)
    exact yields_of_body 8 rfl (Expr.leaves_seq_fail hparen)

theorem yields_percentage_none (h : number.Yields source limit vs none) :
    percentage.Yields source limit vs none :=
  yields_of_body 7 rfl (Expr.leaves_seq_fail h)

theorem lexical_statements : (Context.statements source limit).rules.Lexical :=
  Language.lexical_statements

def candidates : List Expr := (percentage :: kinds).map fun s => .ref (Grammar.statements.name s)

theorem mem_candidates {e : Expr} (he : e ∈ candidates) :
    e = .ref (Grammar.statements.name percentage) ∨
      ∃ s ∈ kinds, e = .ref (Grammar.statements.name s) := by
  obtain ⟨s, hs, rfl⟩ := List.mem_map.1 he
  rcases List.mem_cons.1 hs with rfl | hs
  · exact .inl rfl
  · exact .inr ⟨s, hs, rfl⟩

theorem composite_candidates : ∀ e ∈ candidates, e.Composite := by
  intro e he
  obtain rfl | ⟨s, -, rfl⟩ := mem_candidates he <;> exact .ref _

theorem yields_term_of_alt {r : Option (List Char)}
    (h : (Expr.alt candidates).Leaves (.statements source limit) vs r) :
    term.Yields source limit vs r := yields_of_body 6 rfl h

theorem yields_term_none (hvs : vs.head?.bind opened = none) :
    term.Yields source limit vs none := by
  have hnone : ∀ s ∈ kinds, s.Yields source limit vs none := by
    intro s hs
    apply yields_none hs
    rw [hvs]
    exact fun h => nomatch h
  have hpercentage := yields_percentage_none (hnone number List.mem_cons_self)
  apply yields_term_of_alt
  apply Expr.leaves_alt_none
  intro e he
  obtain rfl | ⟨s, hs, rfl⟩ := mem_candidates he
  · exact hpercentage
  · exact hnone s hs

/-- A term is of the kind that its first character tells. -/
theorem yields_term_of_kind (hs : s ∈ kinds) (h : s.Yields source limit us (some vs))
    (hopen : us.head?.bind opened = some s) (hpercentage : percentage.Yields source limit us none) :
    term.Yields source limit us (some vs) := by
  apply yields_term_of_alt
  have hmem : Expr.ref (Grammar.statements.name s) ∈ candidates :=
    List.mem_map.2 ⟨s, List.mem_cons_of_mem _ hs, rfl⟩
  apply Expr.leaves_alt_only lexical_statements composite_candidates hmem h
  intro e he hne
  obtain rfl | ⟨t, ht, rfl⟩ := mem_candidates he
  · exact hpercentage
  · apply yields_none ht
    rw [hopen]
    intro heq
    cases heq
    exact hne rfl

theorem weighs_number :
    (Expr.ref "NUMBER").Weighs (.statements source limit) (· = 1) := by
  have hrule : (Context.statements source limit).rules.rule? "NUMBER" =
      some (.pattern Tokens.number) := Language.rule?_statements 23 rfl
  exact Expr.weighs_ref_of_leaf hrule (.pattern Tokens.number)

theorem weighs_percentage :
    (Expr.ref "PERCENTAGE").Weighs (.statements source limit) (2 ≤ ·) := by
  have hrule : (Context.statements source limit).rules.rule? "PERCENTAGE" =
      some (.seq [.ref "NUMBER", .lit "%"]) := Language.rule?_statements 7 rfl
  have hbody : (Expr.seq [.ref "NUMBER", .lit "%"]).Weighs (.statements source limit) (1 ≤ ·) := by
    apply Expr.weighs_seq lexical_statements (.ref _)
    · simp
    · intro left b b' hb hrun
      exact Nat.le_of_eq (weighs_number left b b' hb hrun).symm
  exact Expr.weighs_ref_of_composite lexical_statements (by decide) hrule (by simp) hbody

/-- A percentage outweighs the number that it begins with. -/
theorem yields_term_percentage (h : percentage.Yields source limit us (some vs))
    (hopen : us.head?.bind opened = some .number) : term.Yields source limit us (some vs) := by
  apply yields_term_of_alt
  have hmem : Expr.ref (Grammar.statements.name percentage) ∈ candidates := List.mem_cons_self
  apply Expr.leaves_alt lexical_statements composite_candidates hmem h weighs_percentage
  intro e he
  obtain rfl | ⟨s, hs, rfl⟩ := mem_candidates he
  · exact .inl h
  · by_cases hnumber : s = number
    · subst hnumber
      refine .inr (.inr fun left b b' hb hrun => ?_)
      exact Nat.lt_succ_of_le (Nat.le_of_eq (weighs_number left b b' hb hrun))
    · refine .inr (.inl (yields_none hs ?_))
      rw [hopen]
      exact fun heq => hnumber (Option.some.inj heq).symm

end Symbol

end RankedGrammar
