/-!
# Paths

Paths are texts whose parts are divided by slashes. A relative path is read from the root: one that
is meant from another directory is joined to that directory first. Exactly two slashes at the start
of a path are kept apart from one.
-/

namespace PrefixScript.Path

/-- The parts of a path between its slashes, empty ones included. -/
def split : List Char → List (List Char)
  | [] => [[]]
  | '/' :: rest => [] :: split rest
  | c :: rest =>
    match split rest with
    | [] => [[c]]
    | part :: parts => (c :: part) :: parts

/-- Adds a part to a stack of parts, the last one first. An empty part and `.` change nothing, and
`..` removes the part before it. -/
def push (parts : List (List Char)) (part : List Char) : List (List Char) :=
  if part = [] ∨ part = ['.'] then parts
  else if part = ['.', '.'] then parts.tail
  else part :: parts

/-- The slashes at the start of an absolute path. -/
def root : List Char → List Char
  | '/' :: '/' :: '/' :: _ => ['/']
  | '/' :: '/' :: _ => ['/', '/']
  | _ => ['/']

/-- The absolute path that a path stands for, without empty parts, `.` and `..`. -/
def absolute (path : String) : String :=
  let text := path.toList
  let parts := ((split text).foldl push []).reverse
  String.ofList (root text ++ ['/'].intercalate parts)

/-- The directory of a path: what stands before its last slash, that slash apart unless there are
slashes only. -/
def parent (path : String) : String :=
  let front := (path.toList.reverse.dropWhile (· != '/')).reverse
  let trimmed := (front.reverse.dropWhile (· == '/')).reverse
  String.ofList (if trimmed.isEmpty then front else trimmed)

/-- A path as seen from a directory. -/
def join (directory path : String) : String :=
  if path.toList.head? = some '/' then path
  else if directory = "" ∨ directory.toList.getLast? = some '/' then directory ++ path
  else directory ++ "/" ++ path

end PrefixScript.Path
