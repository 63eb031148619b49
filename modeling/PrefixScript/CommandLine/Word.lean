import PrefixScript.Text.Digit

/-!
# Words of a command line

Each argument of a command line is an option, a plain word, or the divider after which there are
plain words only. A long option can be shortened as long as it stays unambiguous, and a value can be
attached to it after an equals sign. Characters can be attached to a short option directly or after
an equals sign.
-/

namespace PrefixScript.CommandLine

inductive Flag where
  | help
  | command
  | noColour
deriving DecidableEq, Repr

/-- The spellings of the options. -/
def spellings : List (List Char × Flag) :=
  [("-h".toList, .help), ("--help".toList, .help), ("-c".toList, .command),
   ("--command".toList, .command), ("--no-color".toList, .noColour)]

/-- The option in messages. -/
def Flag.title : Flag → String
  | help => "-h/--help"
  | command => "-c/--command"
  | noColour => "--no-color"

/-- What is attached to an option. -/
inductive Attached where
  | nothing
  /-- A value after a long option and an equals sign. -/
  | value (text : List Char)
  /-- The characters after a short option, or after it and an equals sign. -/
  | tail (text : List Char)

inductive Word where
  | plain (text : String)
  | divider
  | option (flag : Flag) (attached : Attached)
  /-- An option that there is not. -/
  | unknown (text : String)

/-- Whether a text is a negative number, with digits of any script and no exponent. A line feed at
its end does not count. -/
def isNegativeNumber : List Char → Bool
  | '-' :: text =>
    let number := if text.getLast? = some '\n' then text.dropLast else text
    let whole := number.takeWhile Text.isDecimalDigit
    match number.drop whole.length with
    | [] => !whole.isEmpty
    | '.' :: places => !places.isEmpty && places.all Text.isDecimalDigit
    | _ => false
  | _ => false

/-- The options whose spelling starts with a text. -/
def completions (text : List Char) : List (List Char × Flag) :=
  spellings.filter fun option => text.isPrefixOf option.1

/-- Whether a spelling of an option is a minus and a letter. -/
def isShort (spelling : List Char) : Bool := spelling.length == 2

/-- What stands before the first equals sign, and what is attached by it. -/
def divide (argument : List Char) : List Char × Attached :=
  let front := argument.takeWhile (· != '=')
  match argument.drop front.length with
  | [] => (front, .nothing)
  | _ :: text => (front, if isShort front then .tail text else .value text)

/-- An argument that starts with a minus and is no option. -/
def unmatched (argument : List Char) : Word :=
  if isNegativeNumber argument || argument.contains ' ' then .plain (String.ofList argument)
  else .unknown (String.ofList argument)

/-- The meaning of an argument before the divider, or a complaint about it. -/
def classify (argument : List Char) : Except String Word :=
  let (front, attached) := divide argument
  match argument with
  | '-' :: second :: rest =>
    match spellings.lookup argument, spellings.lookup front with
    | some flag, _ => .ok (.option flag .nothing)
    | none, some flag => .ok (.option flag attached)
    | none, none =>
      if second = '-' then
        match completions front with
        | [] => .ok (unmatched argument)
        | [(_, flag)] => .ok (.option flag attached)
        | several =>
          .error ("ambiguous option: " ++ String.ofList argument ++ " could match " ++
            ", ".intercalate (several.map fun option => String.ofList option.1))
      else
        match spellings.lookup ['-', second] with
        | some flag => .ok (.option flag (.tail rest))
        | none => .ok (unmatched argument)
  | _ => .ok (.plain (String.ofList argument))

/-- The words of a command line, or the first complaint. -/
def words : List String → Except String (List Word)
  | [] => .ok []
  | argument :: rest =>
    if argument = "--" then .ok (.divider :: rest.map .plain)
    else do
      let word ← classify argument.toList
      let others ← words rest
      return word :: others

end PrefixScript.CommandLine
