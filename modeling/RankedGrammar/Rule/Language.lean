import RankedGrammar.Rule.Tokens

/-! Named languages, and the language of statements that the command line reads. -/
namespace RankedGrammar

/-- A name and the rules that make up the lowest layer. -/
structure Language where
  name : String
  rules : Rulebook Expr

namespace Language

def index (l : Language) : RuleIndex Expr := .merge .empty Tokens.rules l.rules

end Language

/-- Statements with numbers, strings, colours, variables and calls:

    SCRIPT        := STATEMENT* WHITESPACE EOF
    STATEMENT     := WHITESPACE (ASSIGNMENT | CALL) WHITESPACE STATEMENT_END
    ASSIGNMENT    := VARIABLE WHITESPACE "=" WHITESPACE EXPRESSION
    VARIABLE      := "$" IDENT
    EXPRESSION    := TERM (WHITESPACE OPERATOR WHITESPACE TERM)*
    TERM          := PERCENTAGE | NUMBER | STRING_LIT | COLOR_HASH | CALL | VARIABLE | GROUP
    PERCENTAGE    := NUMBER "%"
    GROUP         := "(" WHITESPACE EXPRESSION WHITESPACE ")"
    CALL          := IDENT "(" WHITESPACE ARGUMENTS? WHITESPACE ")"
    ARGUMENTS     := EXPRESSION (WHITESPACE "," WHITESPACE EXPRESSION)*
    OPERATOR      := "+" | "-" | "*" | "/"
    STATEMENT_END := ";"

The repeated tails of `EXPRESSION` and `ARGUMENTS` are wrappers. -/
def Language.statementTable : List (String × Expr) := [
  ("SCRIPT", .seq [.many (.ref "STATEMENT"), .ref "WHITESPACE", .ref "EOF"]),
  ("STATEMENT", .seq [.ref "WHITESPACE", .alt [.ref "ASSIGNMENT", .ref "CALL"],
    .ref "WHITESPACE", .ref "STATEMENT_END"]),
  ("ASSIGNMENT", .seq [.ref "VARIABLE", .ref "WHITESPACE", .lit "=", .ref "WHITESPACE",
    .ref "EXPRESSION"]),
  ("VARIABLE", .seq [.lit "$", .ref "IDENT"]),
  ("EXPRESSION", .seq [.ref "TERM", .many (.named "EXPRESSION_TAIL" "OPERATOR TERM")]),
  ("EXPRESSION_TAIL", .seq [.ref "WHITESPACE", .ref "OPERATOR", .ref "WHITESPACE", .ref "TERM"]),
  ("TERM", .alt [.ref "PERCENTAGE", .ref "NUMBER", .ref "STRING_LIT", .ref "COLOR_HASH",
    .ref "CALL", .ref "VARIABLE", .ref "GROUP"]),
  ("PERCENTAGE", .seq [.ref "NUMBER", .lit "%"]),
  ("GROUP", .seq [.lit "(", .ref "WHITESPACE", .ref "EXPRESSION", .ref "WHITESPACE", .lit ")"]),
  ("CALL", .seq [.ref "IDENT", .lit "(", .ref "WHITESPACE", .opt (.ref "ARGUMENTS"),
    .ref "WHITESPACE", .lit ")"]),
  ("ARGUMENTS", .seq [.ref "EXPRESSION", .many (.named "ARGUMENTS_TAIL" "\",\" EXPRESSION")]),
  ("ARGUMENTS_TAIL", .seq [.ref "WHITESPACE", .lit ",", .ref "WHITESPACE", .ref "EXPRESSION"]),
  ("OPERATOR", .byte (.ofList ("+-*/".toList.map Tokens.ascii))),
  ("STATEMENT_END", .byte (.single (Tokens.ascii ';')))]

def Language.statements : Language where
  name := "demo"
  rules := .ofList statementTable

end RankedGrammar
