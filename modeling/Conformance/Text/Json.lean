/-!
# Strings in JSON

A JSON string stands between double quotes. A double quote or backslash inside it is
escaped, and so is a control character, by its own letter where there is one and by
its code elsewhere. Everything else stands for itself.
-/

namespace Conformance

/-- A character of a JSON string, escaped if it has to be. -/
def escapeJson (c : Char) : List Char :=
  if c = '"' then ['\\', '"']
  else if c = '\\' then ['\\', '\\']
  else if c = '\n' then ['\\', 'n']
  else if c = '\r' then ['\\', 'r']
  else if c = '\t' then ['\\', 't']
  else if c = '\x08' then ['\\', 'b']
  else if c = '\x0c' then ['\\', 'f']
  else if c.toNat < 32 then
    ['\\', 'u', '0', '0', Nat.digitChar (c.toNat / 16), Nat.digitChar (c.toNat % 16)]
  else [c]

/-- A string as a JSON text. -/
def jsonString (s : String) : String :=
  String.ofList ('"' :: s.toList.flatMap escapeJson ++ ['"'])

end Conformance
