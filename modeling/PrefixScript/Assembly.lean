import PrefixScript.Host
import PrefixScript.Token.Scan

/-!
# Assembling token lists

The tokens of a source are those of its pieces, in order, with the tokens of the named file in place
of each import directive. A file that was included before is skipped with a warning.
-/

namespace PrefixScript

/-- The keys of the files included so far. -/
abbrev Included := Table Unit

/-- A host together with the files included so far. -/
structure Assembly where
  host : Host
  included : Included

abbrev AssemblyM := EStateM Failure Assembly

namespace Assembly

/-- An activity of the host alone. -/
def ofHost {α : Type} (activity : HostM α) : AssemblyM α := fun assembly =>
  match activity assembly.host with
  | .ok result host => .ok result { assembly with host }
  | .error failure host => .error failure { assembly with host }

/-- The fault of a source of which the given rest cannot be scanned. -/
def unexpected (source rest : List Char) : Fault :=
  let before := source.take (source.length - rest.length)
  let lineStart := (before.reverse.takeWhile (· != '\n')).reverse
  .unexpectedCharacter (String.ofList (lineStart ++ rest.takeWhile (· != '\n'))) lineStart.length
    (rest.headD ' ') (before.count '\n' + 1)

/-- The warning about a file that was included before. -/
def skipped (name : String) : Diagnostic :=
  { Fault.told .general "skipping already imported file '" name "'" .none with excerpt := false }

/-- The text of an imported file, with a line feed after it. Only a file that is read counts as
included. -/
def readImport (name path : String) : AssemblyM (List Char) := do
  let assembly ← get
  let (opened, world) := assembly.host.world.read path
  set { assembly with host := { assembly.host with world } }
  match opened with
  | .nullInPath => throw (.defect .nullInPath)
  | .unreadable => throw (.fault (.unreadableImport name path))
  | .text text =>
    modify fun assembly =>
      { assembly with included := assembly.included.insert (Files.key path) () }
    return text.toList ++ ['\n']

/-- The tokens of an import directive in a source of the given directory, last first, in front of
earlier tokens. The tokens of a source are found by `inner`. -/
def expand (inner : (directory : String) → List Char → List Token → AssemblyM (List Token))
    (directory name : String) (earlier : List Token) : AssemblyM (List Token) := do
  let path := Path.absolute (Path.join directory name)
  let assembly ← get
  if assembly.included.contains (Files.key path) then
    ofHost (Host.warn (skipped name))
    return earlier
  else
    let text ← readImport name path
    ofHost (Host.enter path)
    let tokens ← inner (Path.parent path) text earlier
    ofHost (Host.leave path)
    return tokens

/-- The tokens of some pieces, last first, in front of earlier tokens. -/
def collect (expand : (name : String) → List Token → AssemblyM (List Token)) :
    List Piece → List Token → AssemblyM (List Token)
  | [], earlier => return earlier
  | .token token :: rest, earlier => collect expand rest (token :: earlier)
  | .directive _ name :: rest, earlier => do
    let tokens ← expand name earlier
    collect expand rest tokens
  | .comment _ :: rest, earlier => collect expand rest earlier
  | .blank _ :: rest, earlier => collect expand rest earlier

/-- The tokens of a source, last first, in front of earlier tokens. Imports are nested at most
`depth` deep. That a chain of imports may be too long for a stack is left out. -/
def tokensFrom : (depth : Nat) → (directory : String) → List Char → List Token →
    AssemblyM (List Token)
  | 0, _, _, _ => throw .unfinished
  | depth + 1, directory, source, earlier => do
    let scan := Scan.ofText source
    let tokens ← collect (expand (tokensFrom depth) directory) scan.pieces earlier
    match scan.rest with
    | [] => return tokens
    | rest => throw (.fault (unexpected source rest))

/-- No nesting of imports is deeper than this: each import on the way includes one more file, and a
file can be included under two keys, with one and with two slashes at the start. -/
def depthBound (files : Files) : Nat := 2 * files.entries.length + 1

/-- The tokens of a source in a directory, closed by the ending token. -/
def tokens (directory source : String) : AssemblyM (List Token) := do
  let assembly ← get
  let found ← tokensFrom (depthBound assembly.host.world.files) directory source.toList []
  return (Token.ending :: found).reverse

end Assembly

/-- Some included files, and the file of a source itself, if there is one. -/
def Included.adding (included : Included) : Option String → Included
  | none => included
  | some path => included.insert (Files.key path) ()

/-- The files included at the start: the file of the source itself, if there is one. -/
def Included.ofPath (path : Option String) : Included := Included.adding .empty path

/-- The tokens of a source, which may be the text of a file. Its directory and the path of the file
are given as they are seen from the root. -/
def Host.tokenize (directory : String) (path : Option String) (source : String) :
    HostM (List Token) := fun host =>
  match Assembly.tokens directory source ⟨host, .ofPath path⟩ with
  | .ok tokens assembly => .ok tokens assembly.host
  | .error failure assembly => .error failure assembly.host

end PrefixScript
