import RankedGrammar.Proofs.Grammar.Lookahead

/-!
Texts that the grammar of statements derives. One character says what comes next, so neither greed
nor ranking loses a derivation: every symbol reads its texts whole where they may stand.
-/
namespace RankedGrammar
open Tokens (numberPart identStart identPart)
open Phrase (derives_cons derives_nil derives_text derives_oneOf derives_many derives_maybe)

namespace Symbol

variable {source : Source} {limit : Nat} {s : Symbol} {us vs ws : List Char} {n : Nat}

def Opens (s : Symbol) (us : List Char) : Prop := us.head?.bind opened = some s

theorem Opens.append (h : s.Opens us) (vs : List Char) : s.Opens (us ++ vs) := by
  cases us with
  | nil => cases h
  | cons c us => exact h

theorem opens_number (h : Grammar.statements.Derives (.symbol .number) us) : number.Opens us := by
  obtain ⟨ds, frac, rfl, hds, hne, hfrac⟩ := Tokens.derives_number.1 (Grammar.derives_symbol.1 h)
  cases ds with
  | cons c ds =>
    have hc : numberPart c = true := Bool.or_eq_true_iff.2 (.inl (hds c List.mem_cons_self))
    exact opened_of_numberPart hc
  | nil =>
    rcases hfrac with rfl | ⟨fs, rfl, -, -⟩
    · exact absurd rfl hne
    · rfl

theorem derives_whitespace :
    Grammar.statements.Derives (.symbol .whitespace) ws ↔ ∀ w ∈ ws, blank.contains w = true :=
  Grammar.derives_symbol.trans Phrase.derives_many_one

/-- What the texts of a kind begin with. -/
theorem opens_of_derives (hs : s ∈ kinds) (h : Grammar.statements.Derives (.symbol s) us) :
    s.Opens us := by
  have hrule := Grammar.derives_symbol.1 h
  simp only [kinds, List.mem_cons, List.not_mem_nil, or_false] at hs
  rcases hs with rfl | rfl | rfl | rfl | rfl | rfl
  · exact opens_number h
  · obtain ⟨pieces, rfl, -⟩ := Tokens.derives_stringLit.1 hrule
    rfl
  · obtain ⟨hs, rfl, -, -⟩ := Tokens.exists_of_derives_colorHash hrule
    rfl
  · obtain ⟨as, bs, has, -, rfl⟩ := derives_cons.1 hrule
    obtain ⟨c, cs, rfl, hc, -⟩ := Tokens.derives_ident.1 (Grammar.derives_symbol.1 has)
    exact opened_of_identStart hc
  · obtain ⟨as, bs, has, -, rfl⟩ := derives_cons.1 hrule
    rw [derives_text.1 has]
    rfl
  · obtain ⟨as, bs, has, -, rfl⟩ := derives_cons.1 hrule
    rw [derives_text.1 has]
    rfl

def operators : List Char := ['+', '-', '*', '/']

/-- What may stand after an expression. -/
def afterExpression : List Char := [',', ';', ')']

theorem Ahead.spec {stops : List Char} (h : Ahead stops vs) (hsub : stops ⊆ delimiters) :
    vs.head?.any numberPart = false ∧ vs.head?.any identPart.contains = false ∧
      vs.head?.any Text.isWordChar = false ∧ vs.head? ≠ some '%' ∧ vs.head?.bind opened = none := by
  obtain ⟨c, rest, rfl, hc⟩ := h.head? hsub
  obtain ⟨hnumber, hident, hword, hpercent, hopened⟩ := delimiters_spec hc
  exact ⟨hnumber, hident, hword, fun h => hpercent (Option.some.inj h), hopened⟩

/-- Blanks before a stop are read up to it. -/
theorem Ahead.yields_whitespace {stops : List Char} (h : Ahead stops vs)
    (hstops : ∀ c ∈ stops, blank.contains c = false) :
    ∃ c rest, c ∈ stops ∧ whitespace.Yields source limit vs (some (c :: rest)) := by
  obtain ⟨ws, c, rest, rfl, hws, hc⟩ := h
  exact ⟨c, rest, hc, Symbol.yields_whitespace hws (hstops c hc)⟩

theorem yields_lit {t : String} (ht : t ≠ "") :
    (Expr.lit t).Leaves (.statements source limit) (t.toList ++ vs) (some vs) :=
  Expr.leaves_lit literal_statements ht

theorem opens_percentage (h : Grammar.statements.Derives (.symbol .percentage) us) :
    number.Opens us := by
  obtain ⟨ds, _, hds, -, rfl⟩ := derives_cons.1 (Grammar.derives_symbol.1 h)
  exact (opens_number hds).append _

theorem yields_percentage (h : Grammar.statements.Derives (.symbol .percentage) us) :
    percentage.Yields source limit (us ++ vs) (some vs) := by
  obtain ⟨ds, _, hds, hpercent, rfl⟩ := Phrase.derives_pair.1 (Grammar.derives_symbol.1 h)
  rw [derives_text.1 hpercent, List.append_assoc]
  apply yields_of_body 7 rfl
  apply Expr.leaves_seq_cons (yields_number hds rfl)
  exact Expr.leaves_seq_cons (yields_lit (by decide)) Expr.leaves_seq_nil

theorem yields_number_only (h : Grammar.statements.Derives (.symbol .number) us)
    (hnumber : vs.head?.any numberPart = false) (hpercent : vs.head? ≠ some '%') :
    percentage.Yields source limit (us ++ vs) none := by
  have hsign : (Expr.lit "%").Leaves (.statements source limit) vs none := by
    apply Expr.leaves_lit_none literal_statements (by decide)
    rintro ⟨rest, rfl⟩
    exact hpercent rfl
  apply yields_of_body 7 rfl
  exact Expr.leaves_seq_cons (yields_number h hnumber) (Expr.leaves_seq_fail hsign)

theorem yields_var (h : Grammar.statements.Derives (.symbol .var) us)
    (hvs : vs.head?.any identPart.contains = false) :
    var.Yields source limit (us ++ vs) (some vs) := by
  obtain ⟨_, is, hdollar, his, rfl⟩ := Phrase.derives_pair.1 (Grammar.derives_symbol.1 h)
  rw [derives_text.1 hdollar, List.append_assoc]
  apply yields_of_body 3 rfl
  apply Expr.leaves_seq_cons (yields_lit (by decide))
  exact Expr.leaves_seq_cons (yields_ident his hvs) Expr.leaves_seq_nil

theorem Opens.not_blank (h : s.Opens us) : us.head?.any blank.contains = false := by
  cases us with
  | nil => rfl
  | cons c us =>
    apply Bool.eq_false_iff.2
    intro hc
    obtain ⟨-, -, -, -, hopened⟩ := delimiters_spec (mem_delimiters_of_blank hc)
    have hopen : opened c = some s := h
    rw [hopened] at hopen
    cases hopen

theorem exists_opens_of_term (h : Grammar.statements.Derives (.symbol .term) us) :
    ∃ s : Symbol, s.Opens us := by
  obtain ⟨p, hp, hus⟩ := derives_oneOf.1 (Grammar.derives_symbol.1 h)
  simp only [List.mem_cons, List.not_mem_nil, or_false] at hp
  rcases hp with rfl | rfl | rfl | rfl | rfl | rfl | rfl
  · exact ⟨_, opens_percentage hus⟩
  all_goals exact ⟨_, opens_of_derives (by simp [kinds]) hus⟩

theorem exists_opens_of_expression (h : Grammar.statements.Derives (.symbol .expression) us) :
    ∃ s : Symbol, s.Opens us := by
  obtain ⟨ts, tails, hts, -, rfl⟩ := derives_cons.1 (Grammar.derives_symbol.1 h)
  obtain ⟨s, hs⟩ := exists_opens_of_term hts
  exact ⟨s, hs.append tails⟩

theorem exists_opens_of_arguments (h : Grammar.statements.Derives (.symbol .arguments) us) :
    ∃ s : Symbol, s.Opens us := by
  obtain ⟨es, tails, hes, -, rfl⟩ := derives_cons.1 (Grammar.derives_symbol.1 h)
  obtain ⟨s, hs⟩ := exists_opens_of_expression hes
  exact ⟨s, hs.append tails⟩

/-- The expressions shorter than `n` are read whole. -/
def ReadsBelow (source : Source) (limit : Nat) (n : Nat) : Prop :=
  ∀ es vs, es.length < n → Grammar.statements.Derives (.symbol .expression) es →
    Ahead afterExpression vs → expression.Yields source limit (es ++ vs) (some vs)

theorem yields_group (hbelow : ReadsBelow source limit n) (hlen : us.length ≤ n)
    (h : Grammar.statements.Derives (.symbol .group) us) :
    group.Yields source limit (us ++ vs) (some vs) := by
  have hrule : Phrase.Derives Grammar.statements.rule (.seq [.text "(", .symbol .whitespace,
    .symbol .expression, .symbol .whitespace, .text ")"]) us := Grammar.derives_symbol.1 h
  simp only [derives_cons, derives_nil, derives_text] at hrule
  obtain ⟨_, _, rfl, ⟨ws, _, hws, ⟨es, _, hes, ⟨ws', _, hws', ⟨_, _, rfl, rfl, rfl⟩, rfl⟩, rfl⟩,
    rfl⟩, rfl⟩ := hrule
  obtain ⟨s, hopens⟩ := exists_opens_of_expression hes
  have hshort : es.length < n := by
    simp only [List.length_append] at hlen
    have hparen : "(".toList.length = 1 := rfl
    omega
  have hblanks := derives_whitespace.1 hws
  have hblanks' := derives_whitespace.1 hws'
  have hahead : Ahead afterExpression (ws' ++ (")".toList ++ vs)) :=
    ⟨ws', ')', vs, rfl, hblanks', by decide⟩
  simp only [List.append_assoc, List.nil_append]
  apply yields_of_body 8 rfl
  apply Expr.leaves_seq_cons (yields_lit (by decide))
  apply Expr.leaves_seq_cons (yields_whitespace hblanks (hopens.append _).not_blank)
  apply Expr.leaves_seq_cons (hbelow es _ hshort hes hahead)
  apply Expr.leaves_seq_cons (yields_whitespace hblanks' rfl)
  exact Expr.leaves_seq_cons (yields_lit (by decide)) Expr.leaves_seq_nil

/-- A separator between blanks and an item, which is read whole if a separator or a stop follows. -/
def Tail (source : Source) (limit : Nat) (item : Symbol) (seps stops : List Char)
    (x : List Char) : Prop :=
  ∃ ws c ws' ts, x = ws ++ c :: (ws' ++ ts) ∧ (∀ w ∈ ws, blank.contains w = true) ∧ c ∈ seps ∧
    (∀ w ∈ ws', blank.contains w = true) ∧ (∃ s : Symbol, s.Opens ts) ∧
    ∀ vs, Ahead (seps ++ stops) vs → item.Yields source limit (ts ++ vs) (some vs)

theorem Tail.ahead {item : Symbol} {seps stops x : List Char}
    (h : Tail source limit item seps stops x) : Ahead (seps ++ stops) x := by
  obtain ⟨ws, c, ws', ts, rfl, hws, hc, -, -, -⟩ := h
  exact ⟨ws, c, ws' ++ ts, rfl, hws, List.mem_append_left _ hc⟩

/-- A repetition of tails reads all of them up to a stop. -/
theorem leaves_tails {tail caption : String} {sep : Expr} {item : Symbol} {seps stops : List Char}
    {pieces : List (List Char)}
    (hrule : (Context.statements source limit).rules.rule? tail =
      some (.seq [.ref "WHITESPACE", sep, .ref "WHITESPACE", .ref (Grammar.statements.name item)]))
    (hseps : ∀ c ∈ seps, blank.contains c = false ∧
      ∀ rest, sep.Leaves (.statements source limit) (c :: rest) (some rest))
    (hstops : ∀ c ∈ stops, blank.contains c = false ∧
      ∀ rest, sep.Leaves (.statements source limit) (c :: rest) none)
    (hpieces : ∀ x ∈ pieces, Tail source limit item seps stops x) (hvs : Ahead stops vs) :
    (Expr.many (.named tail caption)).Leaves (.statements source limit) (pieces.flatten ++ vs)
      (some vs) := by
  apply Expr.leaves_many
  · intro as x bs hsplit
    have hx : x ∈ pieces := by
      rw [hsplit]
      exact List.mem_append_right _ List.mem_cons_self
    have hbs : ∀ y ∈ bs, Ahead (seps ++ stops) y := by
      intro y hy
      apply (hpieces y _).ahead
      rw [hsplit]
      exact List.mem_append_right _ (List.mem_cons_of_mem x hy)
    obtain ⟨ws, c, ws', ts, rfl, hws, hc, hws', ⟨s, hopens⟩, hitem⟩ := hpieces x hx
    have hnext : Ahead (seps ++ stops) (bs.flatten ++ vs) :=
      (hvs.mono (List.subset_append_right _ _)).flatten hbs
    refine ⟨by simp, ?_⟩
    simp only [List.append_assoc, List.cons_append]
    have hblanks : whitespace.Yields source limit (ws ++ c :: (ws' ++ (ts ++ (bs.flatten ++ vs))))
        (some (c :: (ws' ++ (ts ++ (bs.flatten ++ vs))))) := yields_whitespace hws (hseps c hc).1
    apply Expr.leaves_named caption hrule
    apply Expr.leaves_seq_cons hblanks
    apply Expr.leaves_seq_cons ((hseps c hc).2 _)
    apply Expr.leaves_seq_cons (yields_whitespace hws' (hopens.append _).not_blank)
    exact Expr.leaves_seq_cons (hitem _ hnext) Expr.leaves_seq_nil
  · obtain ⟨c, rest, hc, hblanks⟩ : ∃ c rest, c ∈ stops ∧
        whitespace.Yields source limit vs (some (c :: rest)) :=
      hvs.yields_whitespace fun c hc => (hstops c hc).1
    apply Expr.leaves_named caption hrule
    exact Expr.leaves_seq_cons hblanks (Expr.leaves_seq_fail ((hstops c hc).2 rest))

theorem yields_arguments (hbelow : ReadsBelow source limit n) (hlen : us.length < n)
    (h : Grammar.statements.Derives (.symbol .arguments) us) (hvs : Ahead [')'] vs) :
    arguments.Yields source limit (us ++ vs) (some vs) := by
  have hrule : Phrase.Derives Grammar.statements.rule (.seq [.symbol .expression,
    .many (.seq [.symbol .whitespace, .text ",", .symbol .whitespace, .symbol .expression])]) us :=
      Grammar.derives_symbol.1 h
  simp only [derives_cons, derives_nil, derives_text, derives_many] at hrule
  obtain ⟨es, _, hes, ⟨_, _, ⟨pieces, hpieces, rfl⟩, rfl, rfl⟩, rfl⟩ := hrule
  rw [List.append_nil] at hlen ⊢
  have htails : ∀ x ∈ pieces, Tail source limit .expression [','] [')'] x := by
    intro x hx
    obtain ⟨ws, _, hws, ⟨_, _, rfl, ⟨ws', _, hws', ⟨ts, _, hts, rfl, rfl⟩, rfl⟩, rfl⟩, rfl⟩ :=
      hpieces x hx
    rw [List.append_nil] at hx
    have hshort : ts.length < n := by
      have hle := (List.sublist_flatten_of_mem hx).length_le
      simp only [List.length_append] at hle hlen
      omega
    refine ⟨ws, ',', ws', ts, by simp, derives_whitespace.1 hws, List.mem_singleton.2 rfl,
      derives_whitespace.1 hws', exists_opens_of_expression hts, fun vs hvs => ?_⟩
    exact hbelow ts vs hshort hts (hvs.mono (by decide))
  have hahead : Ahead afterExpression (pieces.flatten ++ vs) := by
    apply (hvs.mono (by decide)).flatten
    intro x hx
    exact (htails x hx).ahead.mono (by decide)
  have hshort : es.length < n := by
    rw [List.length_append] at hlen
    omega
  rw [List.append_assoc]
  apply yields_of_body 10 rfl
  apply Expr.leaves_seq_cons (hbelow es _ hshort hes hahead)
  refine Expr.leaves_seq_cons (leaves_tails (Language.rule?_statements 11 rfl) ?_ ?_ htails hvs)
    Expr.leaves_seq_nil
  · intro c hc
    rw [List.mem_singleton.1 hc]
    exact ⟨rfl, fun rest => yields_lit (t := ",") (by decide)⟩
  · intro c hc
    rw [List.mem_singleton.1 hc]
    refine ⟨rfl, fun rest => Expr.leaves_lit_none literal_statements (by decide) ?_⟩
    rintro ⟨rest, heq⟩
    cases heq

theorem rule?_blank : (Context.statements source limit).rules.rule? blankName =
    some (.const true) := Language.rule?_statements 14 rfl

theorem composite_opt : ∀ e ∈ [Expr.ref "ARGUMENTS", .ref blankName], e.Composite := by simp

theorem leaves_opt_some {cs : List Char} (h : arguments.Yields source limit cs (some vs)) :
    (Expr.opt (.ref "ARGUMENTS")).Leaves (.statements source limit) cs (some vs) := by
  have hbody : (Expr.seq [.ref "EXPRESSION", .many (.named "ARGUMENTS_TAIL" "\",\" EXPRESSION")]).Weighs
      (.statements source limit) (0 ≤ ·) := Expr.weighs_nonneg _
  have hheavy : (Expr.ref "ARGUMENTS").Weighs (.statements source limit) (1 ≤ ·) :=
    Expr.weighs_ref_of_composite lexical_statements (by decide) (Language.rule?_statements 10 rfl)
      (by simp) hbody
  apply Expr.leaves_alt lexical_statements composite_opt List.mem_cons_self h hheavy
  intro e he
  rcases List.mem_pair.1 he with rfl | rfl
  · exact .inl h
  · refine .inr (.inr fun left b b' hb hrun => ?_)
    exact Nat.lt_succ_of_le (Nat.le_of_eq (Expr.weighs_ref_of_leaf rule?_blank (.const true)
      left b b' hb hrun))

theorem leaves_opt_none {cs : List Char} (h : arguments.Yields source limit cs none) :
    (Expr.opt (.ref "ARGUMENTS")).Leaves (.statements source limit) cs (some cs) := by
  have hblank : (Expr.ref blankName).Leaves (.statements source limit) cs (some cs) :=
    Expr.leaves_ref rule?_blank Expr.leaves_const_true
  have hmem : Expr.ref blankName ∈ [Expr.ref "ARGUMENTS", .ref blankName] := by simp
  apply Expr.leaves_alt_only lexical_statements composite_opt hmem hblank
  intro e he hne
  rcases List.mem_pair.1 he with rfl | rfl
  · exact h
  · exact absurd rfl hne

theorem yields_arguments_none (h : vs.head?.bind opened = none) :
    arguments.Yields source limit vs none := by
  have hexpression : expression.Yields source limit vs none :=
    yields_of_body 4 rfl (Expr.leaves_seq_fail (yields_term_none h))
  exact yields_of_body 10 rfl (Expr.leaves_seq_fail hexpression)

theorem yields_call (hbelow : ReadsBelow source limit n) (hlen : us.length ≤ n)
    (h : Grammar.statements.Derives (.symbol .call) us) :
    call.Yields source limit (us ++ vs) (some vs) := by
  have hrule : Phrase.Derives Grammar.statements.rule (.seq [.symbol .ident, .text "(",
    .symbol .whitespace, .maybe (.symbol .arguments), .symbol .whitespace, .text ")"]) us :=
      Grammar.derives_symbol.1 h
  simp only [derives_cons, derives_nil, derives_text, derives_maybe] at hrule
  obtain ⟨is, _, his, ⟨_, _, rfl, ⟨ws, _, hws, ⟨as, _, has, ⟨ws', _, hws', ⟨_, _, rfl, rfl, rfl⟩,
    rfl⟩, rfl⟩, rfl⟩, rfl⟩, rfl⟩ := hrule
  have hblanks := derives_whitespace.1 hws
  have hblanks' := derives_whitespace.1 hws'
  have hshort : as.length < n := by
    simp only [List.length_append] at hlen
    have hparen : "(".toList.length = 1 := rfl
    omega
  have hahead : Ahead [')'] (ws' ++ (")".toList ++ vs)) :=
    ⟨ws', ')', vs, rfl, hblanks', List.mem_singleton.2 rfl⟩
  simp only [List.append_assoc, List.nil_append]
  apply yields_of_body 9 rfl
  apply Expr.leaves_seq_cons (yields_ident his rfl)
  apply Expr.leaves_seq_cons (yields_lit (by decide))
  rcases has with has | rfl
  · obtain ⟨s, hopens⟩ := exists_opens_of_arguments has
    apply Expr.leaves_seq_cons (yields_whitespace hblanks (hopens.append _).not_blank)
    apply Expr.leaves_seq_cons (leaves_opt_some (yields_arguments hbelow hshort has hahead))
    apply Expr.leaves_seq_cons (yields_whitespace hblanks' rfl)
    exact Expr.leaves_seq_cons (yields_lit (by decide)) Expr.leaves_seq_nil
  · -- the blanks on both sides of the missing arguments go to the first of the two
    have hall : ∀ w ∈ ws ++ ws', blank.contains w = true :=
      List.forall_mem_append.2 ⟨hblanks, hblanks'⟩
    rw [List.nil_append, ← List.append_assoc]
    apply Expr.leaves_seq_cons (yields_whitespace hall rfl)
    apply Expr.leaves_seq_cons (leaves_opt_none (yields_arguments_none rfl))
    have hnone : ∀ w ∈ ([] : List Char), blank.contains w = true := by simp
    apply Expr.leaves_seq_cons (yields_whitespace hnone rfl)
    exact Expr.leaves_seq_cons (yields_lit (by decide)) Expr.leaves_seq_nil

theorem yields_term (hbelow : ReadsBelow source limit n) (hlen : us.length ≤ n)
    (h : Grammar.statements.Derives (.symbol .term) us)
    (hvs : Ahead (operators ++ afterExpression) vs) :
    term.Yields source limit (us ++ vs) (some vs) := by
  obtain ⟨hnumber, hident, hword, hpercent, -⟩ := hvs.spec (by decide)
  have hof : ∀ {s : Symbol}, s ∈ kinds → s ≠ number → Grammar.statements.Derives (.symbol s) us →
      s.Yields source limit (us ++ vs) (some vs) → term.Yields source limit (us ++ vs) (some vs) := by
    intro s hs hne hus hyields
    have hopens : (us ++ vs).head?.bind opened = some s := (opens_of_derives hs hus).append vs
    apply yields_term_of_kind hs hyields hopens
    apply yields_percentage_none
    apply yields_none (by decide)
    rw [hopens]
    exact fun heq => hne (Option.some.inj heq)
  obtain ⟨p, hp, hus⟩ := derives_oneOf.1 (Grammar.derives_symbol.1 h)
  simp only [List.mem_cons, List.not_mem_nil, or_false] at hp
  rcases hp with rfl | rfl | rfl | rfl | rfl | rfl | rfl
  · exact yields_term_percentage (yields_percentage hus) ((opens_percentage hus).append vs)
  · exact yields_term_of_kind (by decide) (yields_number hus hnumber) ((opens_number hus).append vs)
      (yields_number_only hus hnumber hpercent)
  · exact hof (by decide) (by decide) hus (yields_stringLit hus)
  · exact hof (by decide) (by decide) hus (yields_colorHash hus hword)
  · exact hof (by decide) (by decide) hus (yields_call hbelow hlen hus)
  · exact hof (by decide) (by decide) hus (yields_var hus hident)
  · exact hof (by decide) (by decide) hus (yields_group hbelow hlen hus)

theorem exists_of_derives_operator {cs : List Char}
    (h : Grammar.statements.Derives (.symbol .operator) cs) : ∃ c ∈ operators, cs = [c] := by
  obtain ⟨p, hp, hcs⟩ := derives_oneOf.1 (Grammar.derives_symbol.1 h)
  simp only [List.mem_cons, List.not_mem_nil, or_false] at hp
  rcases hp with rfl | rfl | rfl | rfl <;> rw [derives_text.1 hcs]
  · exact ⟨'+', by decide, rfl⟩
  · exact ⟨'-', by decide, rfl⟩
  · exact ⟨'*', by decide, rfl⟩
  · exact ⟨'/', by decide, rfl⟩

theorem yields_operator_none {c : Char} (hc : c ∈ afterExpression) :
    operator.Yields source limit (c :: vs) none := by
  have hholds : (ByteClass.ofList ("+-*/".toList.map Tokens.ascii)).holds c = false := by
    simp only [afterExpression, List.mem_cons, List.not_mem_nil, or_false] at hc
    rcases hc with rfl | rfl | rfl <;> decide +kernel
  apply yields_of_body 12 rfl
  exact Expr.leaves_byte_none (ByteClass.ascii_of_ranges (by decide)) hholds

theorem yields_expression (hbelow : ReadsBelow source limit n) (hlen : us.length ≤ n)
    (h : Grammar.statements.Derives (.symbol .expression) us) (hvs : Ahead afterExpression vs) :
    expression.Yields source limit (us ++ vs) (some vs) := by
  have hrule : Phrase.Derives Grammar.statements.rule (.seq [.symbol .term,
    .many (.seq [.symbol .whitespace, .symbol .operator, .symbol .whitespace, .symbol .term])]) us :=
      Grammar.derives_symbol.1 h
  simp only [derives_cons, derives_nil, derives_many] at hrule
  obtain ⟨ts, _, hts, ⟨_, _, ⟨pieces, hpieces, rfl⟩, rfl, rfl⟩, rfl⟩ := hrule
  rw [List.append_nil] at hlen ⊢
  have htails : ∀ x ∈ pieces, Tail source limit .term operators afterExpression x := by
    intro x hx
    obtain ⟨ws, _, hws, ⟨os, _, hos, ⟨ws', _, hws', ⟨ts', _, hts', rfl, rfl⟩, rfl⟩, rfl⟩, rfl⟩ :=
      hpieces x hx
    obtain ⟨c, hc, rfl⟩ := exists_of_derives_operator hos
    rw [List.append_nil] at hx
    have hshort : ts'.length ≤ n := by
      have hle := (List.sublist_flatten_of_mem hx).length_le
      simp only [List.length_append] at hle hlen
      omega
    exact ⟨ws, c, ws', ts', by simp, derives_whitespace.1 hws, hc, derives_whitespace.1 hws',
      exists_opens_of_term hts', fun vs hvs => yields_term hbelow hshort hts' hvs⟩
  have hahead : Ahead (operators ++ afterExpression) (pieces.flatten ++ vs) := by
    apply (hvs.mono (List.subset_append_right _ _)).flatten
    exact fun x hx => (htails x hx).ahead
  have hshort : ts.length ≤ n := by
    rw [List.length_append] at hlen
    omega
  rw [List.append_assoc]
  apply yields_of_body 4 rfl
  apply Expr.leaves_seq_cons (yields_term hbelow hshort hts hahead)
  refine Expr.leaves_seq_cons (leaves_tails (Language.rule?_statements 5 rfl) ?_ ?_ htails hvs)
    Expr.leaves_seq_nil
  · intro c hc
    have hblank := List.all_eq_true.1 (by decide : (operators.all (!blank.contains ·)) = true) c hc
    exact ⟨by simpa using hblank, fun rest => yields_operator hc⟩
  · intro c hc
    have hblank :=
      List.all_eq_true.1 (by decide : (afterExpression.all (!blank.contains ·)) = true) c hc
    exact ⟨by simpa using hblank, fun rest => yields_operator_none hc⟩

theorem readsBelow (source : Source) (limit n : Nat) : ReadsBelow source limit n := by
  -- what stands inside parentheses is shorter
  induction n with
  | zero => exact fun es vs hes => absurd hes (Nat.not_lt_zero _)
  | succ n ih =>
    intro es vs hes hus hvs
    exact yields_expression ih (Nat.le_of_lt_succ hes) hus hvs

theorem yields_assignment (h : Grammar.statements.Derives (.symbol .assignment) us)
    (hvs : Ahead [';'] vs) : assignment.Yields source limit (us ++ vs) (some vs) := by
  have hrule : Phrase.Derives Grammar.statements.rule (.seq [.symbol .var, .symbol .whitespace,
    .text "=", .symbol .whitespace, .symbol .expression]) us := Grammar.derives_symbol.1 h
  simp only [derives_cons, derives_nil, derives_text] at hrule
  obtain ⟨ns, _, hns, ⟨ws, _, hws, ⟨_, _, rfl, ⟨ws', _, hws', ⟨es, _, hes, rfl, rfl⟩, rfl⟩, rfl⟩,
    rfl⟩, rfl⟩ := hrule
  obtain ⟨s, hopens⟩ := exists_opens_of_expression hes
  have hblanks := derives_whitespace.1 hws
  have hblanks' := derives_whitespace.1 hws'
  simp only [List.append_assoc, List.nil_append]
  have hequals : Ahead ['='] (ws ++ ("=".toList ++ (ws' ++ (es ++ vs)))) :=
    ⟨ws, '=', _, rfl, hblanks, List.mem_singleton.2 rfl⟩
  obtain ⟨-, hident, -, -, -⟩ := hequals.spec (by decide)
  apply yields_of_body 2 rfl
  apply Expr.leaves_seq_cons (yields_var hns hident)
  apply Expr.leaves_seq_cons (yields_whitespace hblanks rfl)
  apply Expr.leaves_seq_cons (yields_lit (by decide))
  apply Expr.leaves_seq_cons (yields_whitespace hblanks' (hopens.append _).not_blank)
  exact Expr.leaves_seq_cons (yields_expression (readsBelow source limit es.length)
    (Nat.le_refl _) hes (hvs.mono (by decide))) Expr.leaves_seq_nil

theorem opens_assignment (h : Grammar.statements.Derives (.symbol .assignment) us) :
    var.Opens us := by
  obtain ⟨ns, _, hns, -, rfl⟩ := derives_cons.1 (Grammar.derives_symbol.1 h)
  exact (opens_of_derives (by decide) hns).append _

theorem yields_assignment_none (h : vs.head?.bind opened ≠ some .var) :
    assignment.Yields source limit vs none :=
  yields_of_body 2 rfl (Expr.leaves_seq_fail (yields_none (by decide) h))

theorem composite_choice : ∀ e ∈ [Expr.ref "ASSIGNMENT", .ref "CALL"], e.Composite := by simp

/-- An assignment or a call, whichever its first character tells. -/
theorem leaves_choice
    (h : Grammar.statements.Derives (.oneOf [.symbol .assignment, .symbol .call]) us)
    (hvs : Ahead [';'] vs) :
    (Expr.alt [.ref "ASSIGNMENT", .ref "CALL"]).Leaves (.statements source limit) (us ++ vs)
      (some vs) ∧ ∃ s : Symbol, s.Opens us := by
  rcases Phrase.derives_either.1 h with h | h
  · have hopens : var.Opens us := opens_assignment h
    have hcall : call.Yields source limit (us ++ vs) none := by
      apply yields_none (by decide)
      rw [hopens.append vs]
      decide
    refine ⟨?_, var, hopens⟩
    apply Expr.leaves_alt_only lexical_statements composite_choice List.mem_cons_self
      (yields_assignment h hvs)
    intro e he hne
    rcases List.mem_pair.1 he with rfl | rfl
    · exact absurd rfl hne
    · exact hcall
  · have hopens : call.Opens us := opens_of_derives (by decide) h
    have hassignment : assignment.Yields source limit (us ++ vs) none := by
      apply yields_assignment_none
      rw [hopens.append vs]
      decide
    have hmem : Expr.ref "CALL" ∈ [Expr.ref "ASSIGNMENT", .ref "CALL"] := by simp
    refine ⟨?_, call, hopens⟩
    apply Expr.leaves_alt_only lexical_statements composite_choice hmem
      (yields_call (readsBelow source limit us.length) (Nat.le_refl _) h)
    intro e he hne
    rcases List.mem_pair.1 he with rfl | rfl
    · exact hassignment
    · exact absurd rfl hne

theorem yields_statement (h : Grammar.statements.Derives (.symbol .statement) us) :
    us ≠ [] ∧ statement.Yields source limit (us ++ vs) (some vs) := by
  have hrule : Phrase.Derives Grammar.statements.rule (.seq [.symbol .whitespace,
    .oneOf [.symbol .assignment, .symbol .call], .symbol .whitespace, .symbol .statementEnd]) us :=
      Grammar.derives_symbol.1 h
  rw [derives_cons] at hrule
  obtain ⟨ws, _, hws, hrule, rfl⟩ := hrule
  simp only [derives_cons, derives_nil] at hrule
  obtain ⟨ss, _, hss, ⟨ws', _, hws', ⟨_, _, hend, rfl, rfl⟩, rfl⟩, rfl⟩ := hrule
  have hend : _ = ";".toList := derives_text.1 (Grammar.derives_symbol.1 hend)
  have hblanks := derives_whitespace.1 hws
  have hblanks' := derives_whitespace.1 hws'
  have hahead : Ahead [';'] (ws' ++ (";".toList ++ vs)) :=
    ⟨ws', ';', vs, rfl, hblanks', List.mem_singleton.2 rfl⟩
  have hchosen : (Expr.alt [.ref "ASSIGNMENT", .ref "CALL"]).Leaves (.statements source limit)
      (ss ++ (ws' ++ (";".toList ++ vs))) (some (ws' ++ (";".toList ++ vs))) ∧
        ∃ s : Symbol, s.Opens ss := leaves_choice hss hahead
  obtain ⟨hchoice, s, hopens⟩ := hchosen
  rw [hend]
  refine ⟨by simp, ?_⟩
  simp only [List.append_assoc, List.nil_append]
  apply yields_of_body 1 rfl
  apply Expr.leaves_seq_cons (yields_whitespace hblanks (hopens.append _).not_blank)
  apply Expr.leaves_seq_cons hchoice
  apply Expr.leaves_seq_cons (yields_whitespace hblanks' rfl)
  exact Expr.leaves_seq_cons yields_statementEnd Expr.leaves_seq_nil

theorem yields_statement_none (hws : ∀ w ∈ ws, blank.contains w = true) :
    statement.Yields source limit ws none := by
  have hblanks : whitespace.Yields source limit (ws ++ []) (some []) := yields_whitespace hws rfl
  rw [List.append_nil] at hblanks
  have hchoice : (Expr.alt [.ref "ASSIGNMENT", .ref "CALL"]).Leaves (.statements source limit) []
      none := by
    apply Expr.leaves_alt_none
    intro e he
    rcases List.mem_pair.1 he with rfl | rfl
    · exact yields_assignment_none (by decide)
    · exact yields_none (s := call) (by decide) (by decide)
  exact yields_of_body 1 rfl (Expr.leaves_seq_cons hblanks (Expr.leaves_seq_fail hchoice))

theorem yields_script (h : Grammar.statements.Derives (.symbol .script) us) :
    script.Yields source limit us (some []) := by
  have hrule : Phrase.Derives Grammar.statements.rule (.seq [.many (.symbol .statement),
    .symbol .whitespace, .symbol .eof]) us := Grammar.derives_symbol.1 h
  simp only [derives_cons, derives_nil, derives_many] at hrule
  obtain ⟨_, _, ⟨pieces, hpieces, rfl⟩, ⟨ws, _, hws, ⟨_, _, heof, rfl, rfl⟩, rfl⟩, rfl⟩ := hrule
  rw [derives_nil.1 (Grammar.derives_symbol.1 heof), List.append_nil, List.append_nil]
  have hblanks := derives_whitespace.1 hws
  have hend : eof.Yields source limit [] (some []) := yields_of_body 16 rfl Expr.leaves_atEnd
  have hmany : (Expr.many (.ref "STATEMENT")).Leaves (.statements source limit)
      (pieces.flatten ++ ws) (some ws) := by
    apply Expr.leaves_many
    · intro as x bs hsplit
      apply yields_statement
      apply hpieces x
      rw [hsplit]
      exact List.mem_append_right _ List.mem_cons_self
    · exact yields_statement_none hblanks
  have hlast : whitespace.Yields source limit (ws ++ []) (some []) := yields_whitespace hblanks rfl
  rw [List.append_nil] at hlast
  apply yields_of_body 0 rfl
  apply Expr.leaves_seq_cons hmany
  apply Expr.leaves_seq_cons hlast
  exact Expr.leaves_seq_cons hend Expr.leaves_seq_nil

end Symbol

end RankedGrammar
