import PrefixScript.Fault
import PrefixScript.World

/-!
# The host of a run

The host keeps the chain of files that are being processed, and tells of warnings and errors. Where
errors are fatal, an error that is told of ends the program.
-/

namespace PrefixScript

structure Host where
  world : World
  /-- Whether an error that is told of ends the program. -/
  fatal : Bool
  /-- The files that are being processed, the innermost last. -/
  trace : List String

/-- Activities of a host. A failure keeps what was done before it. -/
abbrev HostM := EStateM Failure Host

namespace Host

/-- A host in a world, with no file being processed. -/
def start (world : World) (fatal : Bool) : Host := ⟨world, fatal, []⟩

/-- The innermost file, as the head of a message. -/
def location (trace : List String) : Styled :=
  match trace.getLast? with
  | none => []
  | some path => .bold (path ++ ": ")

/-- The chain of files, if there is more than one. -/
def chain (trace : List String) : Styled :=
  if trace.length ≤ 1 then []
  else .plain ("Traceback:\n" ++ String.join (trace.map fun path => "  File '" ++ path ++ "'\n"))

/-- The text at fault on lines of its own, where it is shown. -/
def excerpt (d : Diagnostic) (ink : Ink) : Styled :=
  if d.isHighlighted then d.highlight ink ++ .plain "\n" else []

/-- What is written of a warning. -/
def warning (trace : List String) (d : Diagnostic) : Styled :=
  location trace ++ .inked .magenta "warning: " ++ d.message ++ .plain "\n" ++ excerpt d .magenta

/-- What is written of an error. -/
def report (trace : List String) (d : Diagnostic) : Styled :=
  chain trace ++ location trace ++ (if d.internal then Styled.inked .red "[internal] " else []) ++
    .inked .red "error: " ++ d.message ++ .plain "\n" ++ excerpt d .red

def write (text : Styled) : HostM Unit :=
  modify fun host => { host with world := host.world.write text }

/-- Processing of a file begins. -/
def enter (path : String) : HostM Unit :=
  modify fun host => { host with trace := host.trace ++ [path] }

/-- Processing of a file is over: its first mention in the chain goes. -/
def leave (path : String) : HostM Unit :=
  modify fun host => { host with trace := host.trace.erase path }

def warn (d : Diagnostic) : HostM Unit := do
  let host ← get
  write (warning host.trace d)

/-- Tells of an error. If it does not end the program, no file is being processed any more. -/
def error (d : Diagnostic) : HostM Unit := do
  let host ← get
  write (report host.trace d)
  if host.fatal then throw (Failure.exit (some 1))
  modify fun host => { host with trace := [] }

/-- A diagnostic that is only a message. -/
def notice (text : String) (internal : Bool) : Diagnostic :=
  { Diagnostic.basic .general (.plain text) "" .none with internal := internal }

/-- Tells of a failure. A defect is told of and then fails again, and so does the end of the
program, of which nothing is told. -/
def settle : Failure → HostM Unit
  | .fault fault => error fault.diagnostic
  | .tooDeep => error (notice "maximum recursion depth exceeded" false)
  | .unfinished => throw .unfinished
  | .interrupted => error (notice "keyboard interrupt" false)
  | .exit code => throw (.exit code)
  | .defect defect => do
    error (notice ("unknown error: '" ++ defect.name ++ ": " ++ defect.text ++ "'") true)
    throw (.defect defect)

/-- Runs an activity and tells of its failure. There is no result if a failure was told of. -/
def handled {α : Type} (activity : HostM α) : HostM (Option α) := fun host =>
  match activity host with
  | .ok result host => .ok (some result) host
  | .error failure host => (do settle failure; return none : HostM (Option α)) host

end Host

end PrefixScript
