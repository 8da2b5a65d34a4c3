/-!
# One-line reports

Contexts, limits and errors describe themselves in one line, for logs. The line is the name of the
thing and, in braces, those of its values that may be shown, each under its own name:
a context that keeps something back ends its list with two dots. Keys, counters, buffered bytes
and keystream are always kept back.

A quoted text is written so that it stays on its line: quotes and line ends get a backslash, and
text that is already printable is left alone, whatever its script.
-/

set_option autoImplicit false

namespace GostSuite

namespace Report

/-- The fields as `name: value`, separated by commas. -/
def fieldList (fields : List (String × String)) : List String :=
  fields.map fun (name, value) => name ++ ": " ++ value

/-- A name over a list of entries in braces; a name alone if there are none. -/
def braced (name : String) (entries : List String) : String :=
  if entries.isEmpty then name
  else name ++ " \x7b " ++ String.intercalate ", " entries ++ " \x7d"

/-- A thing all of whose values are shown. -/
def full (name : String) (fields : List (String × String)) : String :=
  braced name (fieldList fields)

/-- A thing that keeps something back. -/
def opened (name : String) (fields : List (String × String)) : String :=
  braced name (fieldList fields ++ [".."])

def hexNumber (v : Nat) : String := String.ofList (Nat.toDigits 16 v)

/-- One character inside quotes. Control characters without a letter of their own are written by
number. -/
def quotedChar (c : Char) : String :=
  if c = '"' then "\\\""
  else if c = '\\' then "\\\\"
  else if c = '\n' then "\\n"
  else if c = '\r' then "\\r"
  else if c = '\t' then "\\t"
  else if c.toNat = 0 then "\\0"
  else if c.toNat < 32 ∨ c.toNat = 127 then "\\u\x7b" ++ hexNumber c.toNat ++ "\x7d"
  else c.toString

def quoted (text : String) : String :=
  "\"" ++ String.join (text.toList.map quotedChar) ++ "\""

end Report

end GostSuite
