import PrefixScript.Path
import PrefixScript.Table
import PrefixScript.Text.CaseFold

/-!
# Files

Files are held under absolute paths with one slash at the start. A file is read as UTF-8 text, in
which every line break becomes a line feed.
-/

namespace PrefixScript

/-- The files at hand, by path. -/
abbrev Files := Table ByteArray

namespace Files

/-- Line feeds in place of carriage returns, alone or before a line feed. -/
def unifyBreaks (text : List Char) (acc : List Char) : List Char :=
  match text with
  | [] => acc.reverse
  | '\r' :: '\n' :: rest => unifyBreaks rest ('\n' :: acc)
  | '\r' :: rest => unifyBreaks rest ('\n' :: acc)
  | c :: rest => unifyBreaks rest (c :: acc)

/-- The place of a path among the files. -/
def place (path : String) : String :=
  match (Path.absolute path).toList with
  | '/' :: '/' :: rest => String.ofList ('/' :: rest)
  | found => String.ofList found

/-- What comes of opening a path. A path with a null character cannot even be asked for. -/
inductive Opened where
  | text (content : String)
  | unreadable
  | nullInPath

/-- Opens a path. The empty path names no file, and bytes that are no UTF-8 cannot be read. -/
def read (files : Files) (path : String) : Opened :=
  if path.toList.contains '\x00' then .nullInPath
  else if path = "" then .unreadable
  else
    match (files.find? (place path)).bind String.fromUTF8? with
    | some text => .text (String.ofList (unifyBreaks text.toList []))
    | none => .unreadable

/-- The key under which a path counts as the same file: absolute, letter case apart. -/
def key (path : String) : String := Text.foldCase (Path.absolute path)

end Files

end PrefixScript
