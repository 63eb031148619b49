import PrefixScript.CommandLine

/-!
# The executable

The run itself is computed from the files, the input and the random numbers it needs, which are
fetched beforehand. Its log is then played back: texts are written, and pauses are kept.
-/

namespace PrefixScript.CommandLine

/-- Fetches the files that a request needs, those first that are known to be needed. -/
partial def gather (request : Request) (working : String) (asked : List String) (files : Files) :
    IO Files := do
  match (request.needs working files).2.filter (!asked.contains ·) with
  | [] => return files
  | paths =>
    let mut found := files
    for path in paths do
      try found := found.insert path (← IO.FS.readBinFile path)
      catch _ => pure ()
    gather request working (paths ++ asked) found

/-- The random numbers of a seed: each is a scrambled count, scaled to lie from zero to one. -/
def drawsOf (seed : UInt64) (n : Nat) : Float :=
  let a := seed + UInt64.ofNat (n + 1) * 0x9E3779B97F4A7C15
  let b := (a ^^^ (a >>> 30)) * 0xBF58476D1CE4E5B9
  let c := (b ^^^ (b >>> 27)) * 0x94D049BB133111EB
  Float.ofNat ((c ^^^ (c >>> 31)) >>> 11).toNat / Float.ofNat (Nat.pow 2 53)

/-- The world of a request. The input is read only if the source reads it, and its line breaks
become line feeds. -/
def prepare (request : Request) : IO World := do
  let working := (← IO.currentDir).toString
  let files ← gather request working [] .empty
  let reads := (request.needs working files).1.any (·.kind = .read)
  let input ← if reads then (← IO.getStdin).readToEnd else pure ""
  let seed ← IO.rand 0 (Nat.pow 2 62)
  return ⟨files, Files.unifyBreaks input.toList [], drawsOf (UInt64.ofNat seed), 0, [], working⟩

/-- Whether the terminal has colours, by the usual variables of the environment. -/
def hasColour : IO Bool := do
  if (← IO.getEnv "NO_COLOR").isSome then return false
  if (← IO.getEnv "FORCE_COLOR").isSome then return true
  (← IO.getStdout).isTty

/-- Plays back what was done. -/
def play (colour : Bool) (log : List Event) : IO Unit := do
  let stdout ← IO.getStdout
  for event in log.reverse do
    match event with
    | .wrote text => stdout.putStr (text.render colour)
    | .slept seconds =>
      stdout.flush
      IO.sleep (seconds * 1000).toUInt32
    | .opened _ => pure ()
  stdout.flush

end PrefixScript.CommandLine

open PrefixScript in
def main (arguments : List String) : IO UInt32 := do
  let world ← match CommandLine.demand arguments with
    | .run request => CommandLine.prepare request
    | _ => pure ⟨.empty, [], fun _ => 0, 0, [], "/"⟩
  let finish := CommandLine.run .standard arguments (← CommandLine.hasColour) world
  CommandLine.play finish.colour finish.world.log
  (← IO.getStderr).putStr finish.complaint
  return UInt32.ofNat finish.code.toNat
