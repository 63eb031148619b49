import PrefixScript.Assembly
import PrefixScript.Evaluation
import PrefixScript.Node.Parse

/-!
# Running a source

A source goes through three stages: it is cut into tokens, these are parsed, and the program is
evaluated. Each stage may fail, and what was done before then stays done.
-/

namespace PrefixScript

/-- The budgets of a run: how deeply the parts of a source may be nested, how deeply evaluations may
be nested, and how many rounds a loop may take. -/
structure Limits where
  nesting : Nat
  depth : Nat
  rounds : Nat

/-- Budgets for everyday use. They stand for a stack of 15000 calls, which is what 1500 nested calls
of functions may need at ten each. A part of a source takes one of them, and an evaluation takes
two. -/
def Limits.standard : Limits := ⟨15000, 7500, Nat.pow 2 62⟩

/-- Parses a token list on a host. -/
def Host.parse (limits : Limits) (tokens : List Token) : HostM (List Node) := fun host =>
  match Parse.tokens limits.nesting tokens with
  | .ok program _ => .ok program host
  | .error failure _ => .error failure host

/-- Runs a program on a new machine in the world of the host. A run may enlarge the stack of the
whole process for all that comes after it. That is left out here: the limits are those of this run,
and a caller gives larger ones where a run before has enlarged the stack. -/
def Host.evaluate (limits : Limits) (program : List Node) : HostM Machine := fun host =>
  match Evaluation.run limits.rounds limits.depth program (.start host.world) with
  | .ok _ machine => .ok machine { host with world := machine.world }
  | .error failure machine => .error failure { host with world := machine.world }

/-- The program of a source that is in no file. -/
def Host.compile (limits : Limits) (source : String) : HostM (List Node) := do
  let tokens ← Host.tokenize (← get).world.working none source
  Host.parse limits tokens

/-- Runs a source that is in no file on a machine, which may have run others before. -/
def Machine.runSource (limits : Limits) (source : String) : RunM Unit := fun machine =>
  match Host.compile limits source (.start machine.world false) with
  | .ok program host =>
    Evaluation.run limits.rounds limits.depth program { machine with world := host.world }
  | .error failure host => .error failure { machine with world := host.world }

end PrefixScript
