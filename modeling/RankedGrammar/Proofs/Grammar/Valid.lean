import RankedGrammar.Proofs.Grammar.Accepted

/-! A source is valid in the language of statements exactly if the grammar derives it. -/
namespace RankedGrammar.Context

variable {source : Source} {limit : Nat} {p : RawParse}

/-- A script that matches goes on to the end of the source. -/
theorem size_le_of_script {b b' : Sprout} {left : Nat}
    (h : (Expr.ref "SCRIPT").growth (.statements source limit)
      ((Context.statements source limit).grow left) b = some (true, b')) :
    source.size ≤ b'.cursor := by
  have hscript : (Context.statements source limit).rules.rule? "SCRIPT" =
      some (.seq [.many (.ref "STATEMENT"), .ref "WHITESPACE", .ref "EOF"]) :=
    Language.rule?_statements 0 rfl
  have heof : (Context.statements source limit).rules.rule? "EOF" = some .atEnd :=
    Language.rule?_statements 16 rfl
  obtain ⟨below, b₁, -, hrun, hcursor⟩ := Expr.exists_of_ref hscript h
  rw [hcursor rfl]
  -- only the last of the three parts says where the script ends
  obtain ⟨b₂, -, hparts⟩ := Growth.exists_of_sequence_cons hrun
  obtain ⟨b₃, -, hparts⟩ := Growth.exists_of_sequence_cons hparts
  obtain ⟨b₄, hend, hnil⟩ := Growth.exists_of_sequence_cons hparts
  cases hnil
  obtain ⟨below', b₆, -, hrun, hcursor⟩ := Expr.exists_of_ref heof hend
  rw [hcursor rfl]
  obtain ⟨hok, rfl⟩ := Prod.mk.inj (Option.some.inj hrun)
  exact of_decide_eq_true hok

/-- A script calls itself as any rule does, so a run of it is told from a call at the start. -/
theorem exists_call_of_rawParse
    (h : (Context.statements source limit).rawParse "SCRIPT" = .ok p) :
    ∃ b b', b.cursor = 0 ∧ (Expr.ref "SCRIPT").growth (.statements source limit)
      ((Context.statements source limit).grow limit) b = some (p.valid, b') := by
  let b : Sprout := Growth.seed (.statements source limit) (.ref "SCRIPT") 0
  have hgrow : (Context.statements source limit).grow limit
      (Growth.seed (.statements source limit) (.ref "SCRIPT") b.cursor) =
        some (p.valid, p.tree.sprout Tree.root) :=
    grow_valid_of_rawParse Symbol.lexical_statements h
  exact ⟨b, _, rfl, Growth.call_eq hgrow⟩

/-- Soundness and completeness meet: what matches is derived and reaches the end, and what is
derived is matched. -/
theorem valid_iff_of_rawParse (h : (Context.statements source limit).rawParse "SCRIPT" = .ok p) :
    p.valid = true ↔ Grammar.statements.Derives (.symbol .script) source.chars := by
  obtain ⟨b, b', hb, hcall⟩ := exists_call_of_rawParse h
  constructor
  · intro hvalid
    rw [hvalid] at hcall
    have hrules : (Context.statements source limit).rules.Renders Grammar.statements :=
      Language.renders_statements
    have hrenders : (Expr.ref "SCRIPT").Renders (Context.statements source limit).rules
        Grammar.statements (.symbol .script) := Expr.Renders.symbol Symbol.script
    have hstart : (source.tail? b.cursor).isSome := by
      rw [hb]
      exact source.tail?_zero
    have hcovers : Growth.Covers source (Grammar.statements.Derives (.symbol .script))
        ((Expr.ref "SCRIPT").growth (.statements source limit)
          ((Context.statements source limit).grow limit)) :=
      hrenders.covers hrules limit
    obtain ⟨cs, hspells, hderives⟩ := hcovers b b' hstart hcall
    rw [hb] at hspells
    have hcs := hspells.eq_chars (size_le_of_script hcall)
    exact hcs ▸ hderives
  · intro hderives
    have hstart : source.tail? b.cursor = some source.chars := by
      rw [hb, Source.tail?_eq]
      exact Text.dropBytes?_zero _
    exact (Symbol.yields_script hderives limit b p.valid b' hstart hcall).1

/-- A source is valid in the language of statements exactly if the grammar derives the whole of it
as a script. -/
theorem valid_iff_derives (source : Source) (limit : Nat) (collapse : Bool) (p : Parse)
    (h : parse { source, rules := Language.statements.index, limit } "SCRIPT" collapse = .ok p) :
    p.valid = true ↔ Grammar.statements.Derives (.symbol .script) source.text.toList := by
  unfold parse at h
  cases hraw : (Context.statements source limit).rawParse "SCRIPT" with
  | error e =>
    have hraw' : rawParse { source, rules := Language.statements.index, limit } "SCRIPT" =
      .error e := hraw
    rw [hraw'] at h
    cases h
  | ok q =>
    have hraw' : rawParse { source, rules := Language.statements.index, limit } "SCRIPT" =
      .ok q := hraw
    rw [hraw'] at h
    have hvalid : p.valid = q.valid := by
      cases h
      cases collapse <;> rfl
    rw [hvalid, ← source.chars_eq]
    exact valid_iff_of_rawParse hraw

/-- The number and the percent sign are one term, and the sum another in parentheses. -/
theorem derives_percentage :
    (parse (.statements (.ofString "$a = 50% * (2 + $b);") 256) "SCRIPT").toOption.map Parse.valid =
        some true ∧
      Grammar.statements.Derives (.symbol .script) "$a = 50% * (2 + $b);".toList := by
  have hrun : (parse (.statements (.ofString "$a = 50% * (2 + $b);") 256)
      "SCRIPT").toOption.map Parse.valid = some true := by decide +kernel
  refine ⟨hrun, ?_⟩
  cases hp : parse (.statements (.ofString "$a = 50% * (2 + $b);") 256) "SCRIPT" with
  | error e =>
    rw [hp] at hrun
    cases hrun
  | ok p =>
    rw [hp] at hrun
    have hiff := valid_iff_derives (.ofString "$a = 50% * (2 + $b);") 256 true p hp
    exact hiff.1 (Option.some.inj hrun)

end RankedGrammar.Context
