/-!
# Quoted text

A string is shown between single quotes, with a backslash before each single quote
inside it. A backslash of its own is shown as it is.
-/

namespace Conformance

/-- The characters with a backslash before each single quote. -/
def escapeQuotes (chars : List Char) : List Char :=
  chars.flatMap fun c => if c = '\'' then ['\\', '\''] else [c]

/-- A string between single quotes. -/
def quoted (s : String) : String :=
  String.ofList ('\'' :: escapeQuotes s.toList ++ ['\''])

/-- A text is put between quotes, and those inside it are escaped. -/
theorem toList_quoted (s : String) :
    (quoted s).toList = '\'' :: escapeQuotes s.toList ++ ['\''] := String.toList_ofList

@[simp] theorem escapeQuotes_nil : escapeQuotes [] = [] := rfl

/-- Quotes are escaped one by one. -/
theorem escapeQuotes_append (a b : List Char) :
    escapeQuotes (a ++ b) = escapeQuotes a ++ escapeQuotes b :=
  List.flatMap_append

end Conformance
