/-!
# Labels in Graphviz text

A label stands between double quotes.  The characters that would end the label or have a meaning in
a record label are written after a backslash, a newline is written as a backslash and an `n`, and a
carriage return is left out.
-/

set_option autoImplicit false

namespace AheadOfTime.Dot

/-- The characters that are written after a backslash. -/
def isSpecial (c : Char) : Bool :=
  c == '\\' || c == '"' || c == '<' || c == '>' || c == '\x7b' || c == '\x7d' || c == '|'

/-- The label text of one character. -/
def escapeChar (c : Char) : List Char :=
  if isSpecial c then ['\\', c]
  else if c = '\n' then ['\\', 'n']
  else if c = '\r' then []
  else [c]

/-- The label text of a list of characters. -/
def escapeChars (s : List Char) : List Char :=
  s.flatMap escapeChar

/-- The label text of a string. -/
def escape (s : String) : String :=
  String.ofList (escapeChars s.toList)

end AheadOfTime.Dot
