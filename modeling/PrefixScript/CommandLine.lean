import PrefixScript.CommandLine.Word
import PrefixScript.Session
import PrefixScript.Text.Quoted

/-!
# The command line

The program runs a file, or a text given on the command line. What the arguments ask for is settled
first, and a wrong use is told of with a line on the right one.
-/

namespace PrefixScript.CommandLine

/-- What is asked for so far. -/
structure Request where
  file : Option String
  command : Option String
  noColour : Bool

/-- What a command line asks for. -/
inductive Demand where
  | help
  | run (request : Request)
  | misuse (message : String)

/-- A wrong use of an option. -/
def Flag.misuse (flag : Flag) (message : String) : Demand :=
  .misuse ("argument " ++ flag.title ++ ": " ++ message)

def Flag.ignores (flag : Flag) (value : List Char) : Demand :=
  flag.misuse ("ignored explicit argument " ++ Text.quoted (String.ofList value))

def missingCommand : Demand := Flag.command.misuse "expected one argument"

/-- The demand of the characters attached to the short help option, given the words that follow.
They are short options in their turn, but help is given whatever they are, unless they are used in a
wrong way. -/
def helpTail (following : List Word) : List Char → Demand
  | ['h'] => .help
  | 'h' :: rest => helpTail following rest
  | ['c'] =>
    match following with
    | .plain _ :: _ => .help
    | _ => missingCommand
  | 'c' :: _ => .help
  | text => Flag.help.ignores text

/-- The command that is attached to its option. The divider stands for the empty one there, as in
early releases of the option parser; later ones keep it. -/
def attachedCommand (text : List Char) : String :=
  if text = ['-', '-'] then "" else String.ofList text

/-- The demand once all words are read. -/
def conclude (request : Request) (surplus : List String) : Demand :=
  if !surplus.isEmpty then
    .misuse ("unrecognized arguments: " ++ " ".intercalate surplus.reverse)
  else if request.file.isNone && request.command.isNone then
    .misuse "either FILE or -c COMMAND is required"
  else .run request

/-- Reads words, given what is asked for so far, whether the place of the file is still open, and
the surplus words (last first). The first plain word or divider closes the place of the file. -/
def demandFrom (request : Request) (isOpen : Bool) (surplus : List String) : List Word → Demand
  | [] => conclude request surplus
  | .plain text :: .divider :: rest =>
    if isOpen then demandFrom { request with file := some text } false surplus rest
    else demandFrom request isOpen ("--" :: text :: surplus) rest
  | .plain text :: rest =>
    if isOpen then demandFrom { request with file := some text } false surplus rest
    else demandFrom request isOpen (text :: surplus) rest
  | .divider :: .plain text :: rest =>
    if isOpen then demandFrom { request with file := some text } false surplus rest
    else demandFrom request isOpen (text :: "--" :: surplus) rest
  | .divider :: rest =>
    demandFrom request false (if isOpen then surplus else "--" :: surplus) rest
  | .unknown text :: rest => demandFrom request isOpen (text :: surplus) rest
  | .option .command .nothing :: .plain text :: rest =>
    demandFrom { request with command := some text } isOpen surplus rest
  | .option .command .nothing :: _ => missingCommand
  | .option .command (.value text) :: rest =>
    demandFrom { request with command := some (attachedCommand text) } isOpen surplus rest
  | .option .command (.tail text) :: rest =>
    demandFrom { request with command := some (attachedCommand text) } isOpen surplus rest
  | .option .help .nothing :: _ => .help
  | .option .help (.tail text) :: rest => helpTail rest text
  | .option .help (.value text) :: _ => Flag.help.ignores text
  | .option .noColour .nothing :: rest =>
    demandFrom { request with noColour := true } isOpen surplus rest
  | .option .noColour (.value text) :: _ => Flag.noColour.ignores text
  | .option .noColour (.tail text) :: _ => Flag.noColour.ignores text

/-- What the arguments of a command line ask for. -/
def demand (arguments : List String) : Demand :=
  match words arguments with
  | .ok found => demandFrom ⟨none, none, false⟩ true [] found
  | .error message => .misuse message

def usage : String := "usage: nytric [-h] [-c COMMAND] [--no-color] [file]\n"

def helpText : String :=
  usage ++
  "\n" ++
  "nytric language interpreter\n" ++
  "\n" ++
  "positional arguments:\n" ++
  "  file                  file to interpret and run\n" ++
  "\n" ++
  "options:\n" ++
  "  -h, --help            show this help message and exit\n" ++
  "  -c COMMAND, --command COMMAND\n" ++
  "                        run COMMAND as a program instead of a file\n" ++
  "  --no-color            disable colored diagnostics\n"

/-- How the program ended: its exit code, what it complained about its use, whether its output may
be coloured, and the world it left. -/
structure Finish where
  code : Int
  complaint : String
  colour : Bool
  world : World

/-- The session of a request. A text given on the command line goes before a file. -/
def Request.session (request : Request) : Session :=
  match request.command, request.file with
  | none, some path => ⟨path⟩
  | _, _ => .interactive

/-- Runs what is asked for. Every error ends the program with code 1. -/
def Request.run (limits : Limits) (request : Request) (colour : Bool) (world : World) : Finish :=
  let colour := colour && !request.noColour
  let activity := Host.handled (request.session.run limits request.command)
  match activity (.start world true) with
  | .ok _ host => ⟨0, "", colour, host.world⟩
  | .error (.exit code) host => ⟨code.getD 0, "", colour, host.world⟩
  | .error _ host => ⟨1, "", colour, host.world⟩

/-- What a request has to be given before it is run: the tokens of its source, as far as the files
at hand let them be found, and the files that this takes. -/
def Request.needs (request : Request) (working : String) (files : Files) :
    List Token × List String :=
  let activity : HostM (List Token) := do
    let text ← match request.command with
      | some text => pure text
      | none => request.session.load
    request.session.tokenize text
  let world : World := ⟨files, [], fun _ => 0, 0, [], working⟩
  match activity (.start world true) with
  | .ok tokens host => (tokens, host.world.opened.map Files.place)
  | .error _ host => ([], host.world.opened.map Files.place)

/-- Runs the program with its arguments, given whether the terminal has colours. -/
def run (limits : Limits) (arguments : List String) (colour : Bool) (world : World) : Finish :=
  match demand arguments with
  | .help => ⟨0, "", colour, world.write (.plain helpText)⟩
  | .misuse message => ⟨2, usage ++ "nytric: error: " ++ message ++ "\n", colour, world⟩
  | .run request => request.run limits colour world

end PrefixScript.CommandLine
