import PrefixScript.Program

/-!
# Sessions

A session runs sources on a host, each on a machine of its own. It has a path: the file that is run
if no source is given, and the place from which imports are found. A reserved path stands for
sources that are in no file.
-/

namespace PrefixScript

structure Session where
  path : String

namespace Session

/-- The path of sources that are in no file. -/
def reserved : String := "<in>"

/-- A session for sources that are in no file. -/
def interactive : Session := ⟨reserved⟩

/-- The file of the session, if there is one. -/
def file? (session : Session) : Option String :=
  if session.path = reserved then none else some session.path

/-- The file of the session as seen from the working directory, if there is one. -/
def located? (session : Session) (working : String) : Option String :=
  session.file?.map (Path.join working)

/-- The directory in which imports are found: that of the session's file, and for sources that are
in no file the working directory, which is the root unless it is given. -/
def directory (session : Session) (working : String := "/") : String :=
  match session.located? working with
  | none => working
  | some path => Path.parent (Path.absolute path)

/-- The text of the session's file. -/
def load (session : Session) : HostM String := do
  match session.file? with
  | none => throw (.fault (.reservedPath session.path))
  | some path =>
    let host ← get
    let (opened, world) := host.world.read (host.world.seen path)
    set { host with world }
    match opened with
    | .text text => return text
    | .unreadable => throw (.fault (.unreadableSource path))
    | .nullInPath => throw (.defect .nullInPath)

/-- The tokens of a source. -/
def tokenize (session : Session) (source : String) : HostM (List Token) := do
  let working := (← get).world.working
  Host.tokenize (session.directory working) (session.located? working) source

/-- Runs a source, or the session's file if none is given, and yields the machine it ran on. -/
def run (limits : Limits) (session : Session) (source : Option String) : HostM Machine := do
  let text ← match source with
    | some text => pure text
    | none => session.load
  Host.enter session.path
  let tokens ← session.tokenize text
  let program ← Host.parse limits tokens
  let machine ← Host.evaluate limits program
  Host.leave session.path
  return machine

end Session

end PrefixScript
