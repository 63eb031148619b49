/-!
# Escapes in text literals

Inside quotes a backslash makes the quote or backslash after it stand for itself. The three escapes
are resolved one after the other; any other backslash stays.
-/

namespace PrefixScript.Text

/-- Replaces a backslash and the given character after it by that character alone. -/
def resolve (escaped : Char) (text : List Char) (acc : List Char) : List Char :=
  match text with
  | [] => acc.reverse
  | '\\' :: c :: rest =>
    if c = escaped then resolve escaped rest (c :: acc)
    else resolve escaped (c :: rest) ('\\' :: acc)
  | c :: rest => resolve escaped rest (c :: acc)

/-- The text that the inside of a literal stands for. -/
def unescape (text : List Char) : List Char :=
  resolve '\\' (resolve '\'' (resolve '"' text []) []) []

end PrefixScript.Text
