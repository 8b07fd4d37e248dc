/-!
# Quoted text

How a string or a character is written in source text. Only what has to be escaped is: the
backslash, the quote itself, and line breaks, tabs and returns. Everything else stands for itself.
-/

namespace Futhark.Text

/-- **Escaped character** between quotes of the given kind. -/
def escapeChar (quote c : Char) : List Char :=
  if c = quote then ['\\', quote]
  else if c = '\\' then ['\\', '\\']
  else if c = '\n' then ['\\', 'n']
  else if c = '\t' then ['\\', 't']
  else if c = '\r' then ['\\', 'r']
  else [c]

/-- **String literal** for a text. -/
def quoted (text : String) : String :=
  String.ofList ('\x22' :: text.toList.flatMap (escapeChar '\x22') ++ ['\x22'])

/-- **Character literal** for a character. -/
def quotedChar (c : Char) : String :=
  String.ofList ('\'' :: escapeChar '\'' c ++ ['\''])

end Futhark.Text
