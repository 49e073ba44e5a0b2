import RankedGrammar.Text.GraphemeExtend
import RankedGrammar.Text.Printable

/-!
Text between double quotes. Quotes, backslashes, line feeds, returns, tabs and NUL have a short
escape, and whatever cannot be seen on its own is written by its code point.
-/
namespace RankedGrammar.Text

/-- The code point of `c` as an escape, in lower-case hexadecimal without leading zeros. -/
def codeEscape (c : Char) : List Char :=
  ['\\', 'u', '\x7b'] ++ Nat.toDigits 16 c.toNat ++ ['\x7d']

/-- The characters that stand for `c` inside quotes; a single quote stands for itself. -/
def quotedChar (c : Char) : List Char :=
  if c = '\x00' then ['\\', '0']
  else if c = '\t' then ['\\', 't']
  else if c = '\r' then ['\\', 'r']
  else if c = '\n' then ['\\', 'n']
  else if c = '"' ∨ c = '\\' then ['\\', c]
  else if (isGraphemeExtend c && !isSoundMark c) || !isPrintable c then codeEscape c
  else [c]

def quoted (text : String) : String :=
  String.ofList (['"'] ++ text.toList.flatMap quotedChar ++ ['"'])

end RankedGrammar.Text
