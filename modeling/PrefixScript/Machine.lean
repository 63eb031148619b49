import PrefixScript.Fault
import PrefixScript.World

/-!
# The machine

A machine runs programs. It holds a stack of frames with the values of variables, the functions that
can be called, and the world. Names are looked up from the top frame down, so a function sees the
variables of the calls below it; a binding always goes into the top frame.
-/

namespace PrefixScript

/-- The stack of frames, which is never empty. -/
structure Frames where
  top : Table Value
  below : List (Table Value)

namespace Frames

/-- One frame without bindings. -/
def initial : Frames := ⟨.empty, []⟩

/-- The frames from the top down. -/
def toList (frames : Frames) : List (Table Value) := frames.top :: frames.below

/-- The value of a name in the highest frame that binds it. -/
def find? (frames : Frames) (name : String) : Option Value :=
  frames.toList.findSome? (·.find? name)

def bind (frames : Frames) (name : String) (value : Value) : Frames :=
  { frames with top := frames.top.insert name value }

def push (frames : Frames) (frame : Table Value) : Frames := ⟨frame, frames.toList⟩

/-- The stack without its top frame, unless that is the only one. -/
def pop (frames : Frames) : Frames :=
  match frames.below with
  | [] => frames
  | next :: rest => ⟨next, rest⟩

theorem find?_bind (frames : Frames) (name key : String) (value : Value) :
    (frames.bind name value).find? key = if key = name then some value else frames.find? key := by
  simp only [find?, bind, toList, List.findSome?_cons, Table.find?_insert]
  by_cases h : key = name <;> simp [h]

/-- The top frame is searched first. -/
theorem find?_push (frames : Frames) (frame : Table Value) (name : String) :
    (frames.push frame).find? name = (frame.find? name).or (frames.find? name) := by
  simp only [find?, push, toList, List.findSome?_cons]
  cases frame.find? name <;> rfl

@[simp] theorem pop_push (frames : Frames) (frame : Table Value) :
    (frames.push frame).pop = frames := rfl

end Frames

/-- A function that can be called. -/
structure Declaration where
  params : List String
  body : List Node

structure Machine where
  frames : Frames
  functions : Table Declaration
  world : World

/-- Computations of a machine. A failure keeps what was done before it, frames included. -/
abbrev RunM := EStateM Failure Machine

/-- How a statement ended: normally, or by a return with a value. -/
inductive Completion where
  | normal
  | returning (value : Value)

/-- The value that a call yields when its body ends so. -/
def Completion.value : Completion → Value
  | normal => .none
  | returning value => value

namespace Machine

/-- A machine that has not run anything. -/
def start (world : World) : Machine := ⟨.initial, .empty, world⟩

def fail {α : Type} (fault : Fault) : RunM α := throw (.fault fault)

/-- The value of a variable. -/
def lookup (name : String) (site : Option Node) : RunM Value := do
  let machine ← get
  match machine.frames.find? name with
  | some value => return value
  | none => fail (.undefinedVariable name site)

/-- Binds a variable in the top frame. -/
def bind (name : String) (value : Value) : RunM Unit :=
  modify fun machine => { machine with frames := machine.frames.bind name value }

def push (frame : Table Value) : RunM Unit :=
  modify fun machine => { machine with frames := machine.frames.push frame }

def pop : RunM Unit := modify fun machine => { machine with frames := machine.frames.pop }

/-- Makes a function callable. -/
def register (name : String) (params : List String) (body : List Node) : RunM Unit :=
  modify fun machine => { machine with functions := machine.functions.insert name ⟨params, body⟩ }

def write (text : String) : RunM Unit :=
  modify fun machine => { machine with world := machine.world.write (.plain text) }

/-- A value as a number. -/
def number (value : Value) (site : Node) : RunM Float :=
  match value.toNumber with
  | .ok x => return x
  | .error text => fail (.notNumeric text (some site))

/-- The next line of the input, or no value at its end. -/
def readLine : RunM Value := do
  let machine ← get
  let (line, world) := machine.world.readLine
  set { machine with world }
  match line with
  | some text => return .text text
  | none => return .none

/-- Pauses for a number of milliseconds, not at all if it is negative. -/
def pause (delay : Float) : RunM Unit :=
  let span := if delay < 0 then 0 else delay
  modify fun machine => { machine with world := machine.world.record (.slept (span / 1000)) }

/-- The next random number. -/
def draw : RunM Float := do
  let machine ← get
  let (x, world) := machine.world.draw
  set { machine with world }
  return x

/-- The function of a call with a number of arguments. -/
def callee (name : String) (given : Nat) (site : Node) : RunM Declaration := do
  let machine ← get
  match machine.functions.find? name with
  | none => fail (.undefinedFunction name site)
  | some declaration =>
    if given = declaration.params.length then return declaration
    else fail (.arityMismatch name declaration.params.length given site)

end Machine

end PrefixScript
