import RankedGrammar.Proofs.Grammar.Rendering
import RankedGrammar.Proofs.Rule.Index
import RankedGrammar.Rule.Language

/-!
The documented grammar of statements. Its tokens are the texts of their patterns, whatever stands
around them, and blanks separate them only where it says so.
-/
namespace RankedGrammar

/-- The symbols of the grammar, from `whitespace` on its tokens. -/
inductive Symbol where
  | script
  | statement
  | assignment
  | var
  | expression
  | term
  | percentage
  | group
  | call
  | arguments
  | operator
  | statementEnd
  | whitespace
  | ident
  | number
  | stringLit
  | colorHash
  | eof
deriving DecidableEq

/-- Space, tab, line feed, form feed and carriage return. -/
def Symbol.blanks : List Char := [' ', '\t', '\n', '\x0c', '\r']

def Symbol.blank : Text.CharClass := { ranges := blanks.map fun c => (c, c) }

/-- The grammar of statements. The end of the source derives nothing: it is where a derivation of a
whole source ends. -/
def Grammar.statements : Grammar Symbol where
  name
    | .script => "SCRIPT"
    | .statement => "STATEMENT"
    | .assignment => "ASSIGNMENT"
    | .var => "VARIABLE"
    | .expression => "EXPRESSION"
    | .term => "TERM"
    | .percentage => "PERCENTAGE"
    | .group => "GROUP"
    | .call => "CALL"
    | .arguments => "ARGUMENTS"
    | .operator => "OPERATOR"
    | .statementEnd => "STATEMENT_END"
    | .whitespace => "WHITESPACE"
    | .ident => "IDENT"
    | .number => "NUMBER"
    | .stringLit => "STRING_LIT"
    | .colorHash => "COLOR_HASH"
    | .eof => "EOF"
  rule
    | .script => .seq [.many (.symbol .statement), .symbol .whitespace, .symbol .eof]
    | .statement => .seq [.symbol .whitespace, .oneOf [.symbol .assignment, .symbol .call],
        .symbol .whitespace, .symbol .statementEnd]
    | .assignment => .seq [.symbol .var, .symbol .whitespace, .text "=", .symbol .whitespace,
        .symbol .expression]
    | .var => .seq [.text "$", .symbol .ident]
    | .expression => .seq [.symbol .term, .many (.seq [.symbol .whitespace, .symbol .operator,
        .symbol .whitespace, .symbol .term])]
    | .term => .oneOf [.symbol .percentage, .symbol .number, .symbol .stringLit,
        .symbol .colorHash, .symbol .call, .symbol .var, .symbol .group]
    | .percentage => .seq [.symbol .number, .text "%"]
    | .group => .seq [.text "(", .symbol .whitespace, .symbol .expression, .symbol .whitespace,
        .text ")"]
    | .call => .seq [.symbol .ident, .text "(", .symbol .whitespace, .maybe (.symbol .arguments),
        .symbol .whitespace, .text ")"]
    | .arguments => .seq [.symbol .expression, .many (.seq [.symbol .whitespace, .text ",",
        .symbol .whitespace, .symbol .expression])]
    | .operator => .oneOf [.text "+", .text "-", .text "*", .text "/"]
    | .statementEnd => .text ";"
    | .whitespace => .many (.one Symbol.blank)
    | .ident => Tokens.ident.phrase
    | .number => Tokens.number.phrase
    | .stringLit => Tokens.stringLit.phrase
    | .colorHash => Tokens.colorHash.phrase
    | .eof => .seq []

namespace Language

/-- No two rules of the statement language share a name. -/
theorem rule?_statements {name : String} {body : Expr} (i : Nat)
    (h : (statementTable ++ Tokens.table)[i]? = some (name, body)) :
    statements.index.rule? name = some body := by
  have hnames : ((statementTable ++ Tokens.table).map (·.1)).Nodup := by decide +kernel
  rw [List.map_append] at hnames
  have hstatements := Rulebook.entries_ofList (List.nodup_append.1 hnames).1
  have htokens := Rulebook.entries_ofList (List.nodup_append.1 hnames).2.1
  apply RuleIndex.rule?_merge
  · rw [Rulebook.names, Rulebook.names, statements, Tokens.rules, hstatements, htokens]
    exact hnames
  · rw [statements, Tokens.rules, hstatements, htokens]
    exact List.mem_of_getElem? h

theorem blank_of_holds {c : Char} (h : Tokens.whitespace.holds c = true) :
    Symbol.blank.contains c = true :=
  ByteClass.forall_holds (by decide +kernel) h

/-- Every rule has the shape that is documented; the rules of the tails stand for their bodies. -/
theorem renders_statements : statements.index.Renders Grammar.statements := by
  have hlit : statements.index.rule? literalName = some .attached := rule?_statements 15 rfl
  have hblank : (Expr.ref blankName).Renders statements.index Grammar.statements (.seq []) :=
    .ref (rule?_statements 14 rfl) (.const true)
  have hsymbol : ∀ s, (Expr.ref (Grammar.statements.name s)).Renders statements.index
      Grammar.statements (.symbol s) := .symbol
  intro s
  cases s with
  | script =>
    refine ⟨_, rule?_statements 0 rfl, ?_⟩
    exact .cons (.many (hsymbol .statement)) (.cons (hsymbol .whitespace)
      (.cons (hsymbol .eof) .nil))
  | statement =>
    refine ⟨_, rule?_statements 1 rfl, ?_⟩
    have hchoice : (Expr.alt [.ref "ASSIGNMENT", .ref "CALL"]).Renders statements.index
        Grammar.statements (.oneOf [.symbol .assignment, .symbol .call]) := by
      apply Expr.Renders.alt
      intro e he
      rcases List.mem_pair.1 he with rfl | rfl
      · exact .oneOf (by simp) (hsymbol .assignment)
      · exact .oneOf (by simp) (hsymbol .call)
    exact .cons (hsymbol .whitespace) (.cons hchoice (.cons (hsymbol .whitespace)
      (.cons (hsymbol .statementEnd) .nil)))
  | assignment =>
    refine ⟨_, rule?_statements 2 rfl, ?_⟩
    exact .cons (hsymbol .var) (.cons (hsymbol .whitespace) (.cons (.lit hlit "=")
      (.cons (hsymbol .whitespace) (.cons (hsymbol .expression) .nil))))
  | var =>
    refine ⟨_, rule?_statements 3 rfl, ?_⟩
    exact .cons (.lit hlit "$") (.cons (hsymbol .ident) .nil)
  | expression =>
    refine ⟨_, rule?_statements 4 rfl, ?_⟩
    have htail := Expr.Renders.named (g := Grammar.statements) "OPERATOR TERM"
      (rule?_statements 5 rfl) (.cons (hsymbol .whitespace) (.cons (hsymbol .operator)
        (.cons (hsymbol .whitespace) (.cons (hsymbol .term) .nil))))
    exact .cons (hsymbol .term) (.cons (.many htail) .nil)
  | term =>
    refine ⟨_, rule?_statements 6 rfl, ?_⟩
    apply Expr.Renders.alt
    intro e he
    simp only [List.mem_cons, List.not_mem_nil, or_false] at he
    rcases he with rfl | rfl | rfl | rfl | rfl | rfl | rfl
    · exact .oneOf (by simp) (hsymbol .percentage)
    · exact .oneOf (by simp) (hsymbol .number)
    · exact .oneOf (by simp) (hsymbol .stringLit)
    · exact .oneOf (by simp) (hsymbol .colorHash)
    · exact .oneOf (by simp) (hsymbol .call)
    · exact .oneOf (by simp) (hsymbol .var)
    · exact .oneOf (by simp) (hsymbol .group)
  | percentage =>
    refine ⟨_, rule?_statements 7 rfl, ?_⟩
    exact .cons (hsymbol .number) (.cons (.lit hlit "%") .nil)
  | group =>
    refine ⟨_, rule?_statements 8 rfl, ?_⟩
    exact .cons (.lit hlit "(") (.cons (hsymbol .whitespace) (.cons (hsymbol .expression)
      (.cons (hsymbol .whitespace) (.cons (.lit hlit ")") .nil))))
  | call =>
    refine ⟨_, rule?_statements 9 rfl, ?_⟩
    have hmaybe : (Expr.opt (.ref "ARGUMENTS")).Renders statements.index Grammar.statements
        (.maybe (.symbol .arguments)) := by
      apply Expr.Renders.alt
      intro e he
      rcases List.mem_pair.1 he with rfl | rfl
      · exact .oneOf (by simp) (hsymbol .arguments)
      · exact .oneOf (by simp) hblank
    exact .cons (hsymbol .ident) (.cons (.lit hlit "(") (.cons (hsymbol .whitespace)
      (.cons hmaybe (.cons (hsymbol .whitespace) (.cons (.lit hlit ")") .nil)))))
  | arguments =>
    refine ⟨_, rule?_statements 10 rfl, ?_⟩
    have htail := Expr.Renders.named (g := Grammar.statements) "\",\" EXPRESSION"
      (rule?_statements 11 rfl) (.cons (hsymbol .whitespace) (.cons (.lit hlit ",")
        (.cons (hsymbol .whitespace) (.cons (hsymbol .expression) .nil))))
    exact .cons (hsymbol .expression) (.cons (.many htail) .nil)
  | operator =>
    refine ⟨_, rule?_statements 12 rfl, .byte (ByteClass.ascii_of_ranges (by decide)) ?_⟩
    intro c hc
    have hmem := ByteClass.forall_holds (p := fun c => ['+', '-', '*', '/'].contains c)
      (by decide +kernel) hc
    simp only [List.contains_eq_mem, List.mem_cons, List.not_mem_nil, or_false,
      decide_eq_true_eq] at hmem
    rcases hmem with rfl | rfl | rfl | rfl
    · exact .oneOf (by simp) (.text "+")
    · exact .oneOf (by simp) (.text "-")
    · exact .oneOf (by simp) (.text "*")
    · exact .oneOf (by simp) (.text "/")
  | statementEnd =>
    refine ⟨_, rule?_statements 13 rfl, .byte (ByteClass.ascii_of_ranges (by decide)) ?_⟩
    intro c hc
    have heq := ByteClass.forall_holds (p := fun c => c == ';') (by decide +kernel) hc
    rw [eq_of_beq heq]
    exact .text ";"
  | whitespace =>
    refine ⟨_, rule?_statements 19 rfl, .bytes (ByteClass.ascii_of_ranges (by decide)) 0 ?_⟩
    intro cs hcs
    exact Phrase.derives_many_one.2 fun c hc => blank_of_holds (hcs c hc)
  | ident => exact ⟨_, rule?_statements 22 rfl, .pattern Tokens.ident⟩
  | number => exact ⟨_, rule?_statements 23 rfl, .pattern Tokens.number⟩
  | stringLit => exact ⟨_, rule?_statements 24 rfl, .pattern Tokens.stringLit⟩
  | colorHash => exact ⟨_, rule?_statements 25 rfl, .pattern Tokens.colorHash⟩
  | eof => exact ⟨_, rule?_statements 16 rfl, .atEnd⟩

end Language

end RankedGrammar
