import PrefixScript.Files
import PrefixScript.Styled

/-!
# The world of a run

A program reads lines, draws random numbers, writes, and pauses. The world holds what there is to
read and to draw, and the log of what was done.
-/

namespace PrefixScript

inductive Event where
  | wrote (text : Styled)
  | slept (seconds : Float)
  | opened (path : String)

structure World where
  files : Files
  /-- The input that is not read yet. -/
  input : List Char
  /-- The random numbers, in the order in which they are drawn. -/
  draws : Nat → Float
  drawn : Nat
  /-- What was done, the latest first. -/
  log : List Event
  /-- The directory in which the program was started, the root unless it is given. -/
  working : String := "/"

namespace World

def record (world : World) (event : Event) : World := { world with log := event :: world.log }

def write (world : World) (text : Styled) : World := world.record (.wrote text)

/-- The next random number. -/
def draw (world : World) : Float × World :=
  (world.draws world.drawn, { world with drawn := world.drawn + 1 })

/-- A line without the line feeds and carriage returns at its end. -/
def dropBreaks (line : List Char) : List Char :=
  (line.reverse.dropWhile fun c => c == '\n' || c == '\r').reverse

/-- The next line of the input, if there is one. -/
def readLine (world : World) : Option String × World :=
  match world.input with
  | [] => (none, world)
  | input =>
    let line := input.takeWhile (· != '\n')
    (some (String.ofList (dropBreaks line)), { world with input := input.drop (line.length + 1) })

/-- A path that is opened in the working directory. The empty path names no file there either. -/
def seen (world : World) (path : String) : String :=
  if path = "" then path else Path.join world.working path

/-- Opens a path. -/
def read (world : World) (path : String) : Files.Opened × World :=
  (world.files.read path, world.record (.opened path))

/-- Everything written, in order. -/
def output (world : World) : Styled :=
  world.log.reverse.flatMap fun
    | .wrote text => text
    | _ => []

/-- The pauses in seconds, in order. -/
def delays (world : World) : List Float :=
  world.log.reverse.filterMap fun
    | .slept seconds => some seconds
    | _ => none

/-- The paths opened, in order. -/
def opened (world : World) : List String :=
  world.log.reverse.filterMap fun
    | .opened path => some path
    | _ => none

end World

end PrefixScript
