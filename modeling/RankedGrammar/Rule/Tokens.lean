import RankedGrammar.Rule.Expr
import RankedGrammar.Rule.Rulebook

/-!
The rules that every language is built on: tokens that consume text and create no children.
-/
namespace RankedGrammar.Tokens
open Text (CharClass Pattern)

def ascii (c : Char) : UInt8 := c.toUInt8

/-- Space, tab, line feed, form feed and carriage return; not the vertical tab. -/
def whitespace : ByteClass := .ofList [ascii ' ', ascii '\t', ascii '\n', 12, ascii '\r']

def digit : CharClass := { ranges := [('0', '9')] }

def identStart : CharClass := { ranges := [('A', 'Z'), ('a', 'z'), ('_', '_')] }

def identPart : CharClass := { ranges := [('A', 'Z'), ('a', 'z'), ('0', '9'), ('_', '_')] }

def hexDigit : CharClass := { ranges := [('0', '9'), ('a', 'f'), ('A', 'F')] }

def ident : Pattern := .seq (.one identStart) (.star (.one identPart))

/-- Digits with an optional fraction, or a fraction alone. -/
def number : Pattern :=
  .alt (.seq (.plus (.one digit)) (.opt (.seq (.char '.') (.plus (.one digit)))))
    (.seq (.char '.') (.plus (.one digit)))

/-- A character of a string: anything but a quote, a backslash and a line feed, or an escape. -/
def stringItem : Pattern :=
  .alt (.one { ranges := [('"', '"'), ('\\', '\\'), ('\n', '\n')], negated := true })
    (.seq (.char '\\') (.one .notLineFeed))

def stringLit : Pattern := .seq (.char '"') (.seq (.star stringItem) (.char '"'))

/-- A number sign and eight, six, four or three hexadecimal digits that end a word. -/
def colorHash : Pattern :=
  .seq (.char '#') <| .seq
    (.alt (.times 8 (.one hexDigit)) <| .alt (.times 6 (.one hexDigit))
      (.seq (.times 3 (.one hexDigit)) (.opt (.one hexDigit))))
    .wordEdge

def comment : Pattern := .seq (.char '/') (.seq (.char '/') (.star (.one .notLineFeed)))

def table : List (String × Expr) := [
  (blankName, .const true),
  (literalName, .attached),
  ("EOF", .atEnd),
  ("EOL", .any [.text "\r\n", .byte (.single (ascii '\n'))]),
  ("SPACE", .bytes (.ofList [ascii ' ', ascii '\t']) 1),
  ("WHITESPACE", .bytes whitespace 0),
  ("DIGIT", .byte (.range (ascii '0') (ascii '9'))),
  ("LETTER", .any [.byte (.range (ascii 'a') (ascii 'z')), .byte (.range (ascii 'A') (ascii 'Z'))]),
  ("IDENT", .pattern ident),
  ("NUMBER", .pattern number),
  ("STRING_LIT", .pattern stringLit),
  ("COLOR_HASH", .pattern colorHash),
  ("COMMENT", .pattern comment)]

def rules : Rulebook Expr := .ofList table

end RankedGrammar.Tokens
