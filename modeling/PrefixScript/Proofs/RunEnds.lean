import PrefixScript.Proofs.Congruence
import PrefixScript.Proofs.GrammarSoundness
import PrefixScript.Proofs.SessionChain

/-!
# How runs end

A run fails with a fault of the program or a defect, because something is nested too deeply, or
because a loop goes on. Never does it end the whole program by itself. Of all these failures but the
last one a handled run tells with one diagnostic, and no file is being processed any more then.
-/
namespace PrefixScript

namespace Failure

/-- The failures that a run can end with. -/
inductive Arises : Failure → Prop
  | fault (fault : Fault) : Arises (.fault fault)
  | tooDeep : Arises .tooDeep
  | unfinished : Arises .unfinished
  | defect (defect : Defect) : Arises (.defect defect)

/-- Activities that fail only as runs do. -/
def arising (σ : Type) : Law Failure σ where
  kept _ _ := True
  failed failure _ _ := failure.Arises
  refl _ := trivial
  trans _ _ := trivial
  failed_of_kept _ h := h

/-- What is told of a failure, if anything is. -/
def diagnostic? : Failure → Option Diagnostic
  | fault cause => some cause.diagnostic
  | tooDeep => some (Host.notice "maximum recursion depth exceeded" false)
  | interrupted => some (Host.notice "keyboard interrupt" false)
  | defect cause =>
    some (Host.notice ("unknown error: '" ++ cause.name ++ ": " ++ cause.text ++ "'") true)
  | unfinished | exit _ => none

/-- Whether a failure is told of and then fails again. -/
def isDefect : Failure → Bool
  | defect _ => true
  | _ => false

/-- Something is told of every run that fails, unless it goes on. -/
theorem Arises.exists_diagnostic {failure : Failure} (h : failure.Arises)
    (hn : failure ≠ .unfinished) : ∃ d, failure.diagnostic? = some d := by
  cases h with
  | fault fault => exact ⟨_, rfl⟩
  | tooDeep => exact ⟨_, rfl⟩
  | unfinished => exact absurd rfl hn
  | defect defect => exact ⟨_, rfl⟩

end Failure

/-! ## Failures of runs -/

open Failure (arising)

theorem Machine.Primitive.arises {α : Type} {activity : RunM α} (h : Machine.Primitive activity) :
    (arising Machine).Obeyed activity := by
  cases h with
  | fail fault => exact .throw fun _ => .fault fault
  | tooDeep => exact .throw fun _ => .tooDeep
  | unfinished => exact .throw fun _ => .unfinished
  | lookup name site =>
    intro s
    simp only [Machine.lookup, ends_bind, ends_get]
    cases s.frames.find? name with
    | some value => trivial
    | none => exact .fault _
  | callee name given site =>
    intro s
    simp only [Machine.callee, ends_bind, ends_get]
    cases s.functions.find? name with
    | none => exact .fault _
    | some declaration =>
      show Ends (if _ then _ else _) _ _ _
      split
      · trivial
      · exact .fault _
  | readLine =>
    intro s
    simp only [Machine.readLine, ends_bind, ends_get, ends_set]
    split <;> trivial
  | _ => exact fun _ => trivial

/-- Activities that are put together from such that fail only as runs do. -/
def Machine.arising : Congruence where
  rel _ activity := (Failure.arising Machine).Obeyed activity
  own h := h.arises
  bind h hn := .bind h hn

namespace Host

theorem parse_arises (limits : Limits) (tokens : List Token) :
    (arising Host).Obeyed (parse limits tokens) := by
  intro host
  have hreads := @Parse.program_reads (.ofTokens tokens) limits.nesting tokens
  rw [ends_parse]
  cases hp : Parse.tokens limits.nesting tokens with
  | ok program left => trivial
  | error failure left =>
    obtain ⟨used, -, hrefused⟩ := Ends.of_error hreads hp
    cases hrefused with
    | unexpected => exact .fault _
    | expected => exact .fault _
    | exhausted => exact .defect _
    | noNumber => exact .defect _
    | tooDeep => exact .tooDeep

theorem evaluate_arises (limits : Limits) (program : List Node) :
    (arising Host).Obeyed (evaluate limits program) := by
  intro host
  have hrun : (arising Machine).Obeyed (Evaluation.run limits.rounds limits.depth program) :=
    Congruence.run (Machine.arising.covers_same limits.rounds) limits.depth program
  rw [ends_evaluate]
  exact hrun _

end Host

namespace Session
variable {session : Session} {limits : Limits} {host : Host}

theorem load_arises (session : Session) : (arising Host).Obeyed session.load := by
  intro host
  rw [ends_load]
  split
  · exact .fault _
  · split
    · trivial
    · exact .fault _
    · exact .defect _

theorem tokenize_arises (session : Session) (text : String) :
    (arising Host).Obeyed (session.tokenize text) := by
  intro host
  rw [ends_tokenize]
  refine (Assembly.tokensFrom_reads (session.directory host.world.working) text.toList
    (session.assembly host)).mono (fun _ _ _ => trivial) ?_
  rintro failure after ⟨-, hstops⟩
  cases hstops with
  | lexical => exact .fault _
  | unreadable => exact .fault _
  | nullInPath => exact .defect _
  | unfinished => exact .unfinished

theorem run_arises (limits : Limits) (session : Session) (source : Option String) :
    (arising Host).Obeyed (session.run limits source) := by
  have henter (text : String) :
      (arising Host).Obeyed (do Host.enter session.path; return text : HostM String) :=
    .bind (.modify fun _ => trivial) fun _ => .pure text
  have hbegin : (arising Host).Obeyed (session.enter source) := by
    unfold enter
    cases source with
    | some text => exact henter text
    | none => exact .bind session.load_arises henter
  rw [run_eq]
  refine .bind hbegin fun text => .bind (session.tokenize_arises text) fun tokens => ?_
  exact .bind (Host.parse_arises limits tokens) fun program =>
    .bind (Host.evaluate_arises limits program) fun machine =>
      .bind (.modify fun _ => trivial) fun _ => .pure machine

/-- A run that starts with no file in the chain leaves none in it if it succeeds. -/
theorem run_trace (limits : Limits) (session : Session) (source : Option String)
    (ht : host.trace = []) :
    Ends (session.run limits source) host (fun _ after => after.trace = []) fun _ _ => True := by
  rw [run_eq, ends_bind]
  refine (session.ends_enter source host).mono (fun text begun hbegun => ?_) fun _ _ _ => trivial
  rw [ht, List.nil_append] at hbegun
  rw [ends_bind]
  refine (tokenize_blames hbegun text).mono (fun tokens middle hmiddle => ?_) fun _ _ _ => trivial
  refine (session.ends_finish limits tokens middle).mono (fun _ after hafter => ?_)
    fun _ _ _ => trivial
  rw [hafter, hmiddle, List.erase_cons_head]

end Session

/-! ## Handled failures -/

namespace Host

/-- The host after an error was told of. -/
def told (host : Host) (d : Diagnostic) : Host :=
  { host with world := host.world.write (report host.trace d) }

/-- Where errors are fatal, what is told ends the program. Otherwise no file is being processed any
more. -/
theorem error_eq (d : Diagnostic) (host : Host) :
    error d host =
      if host.fatal then .error (.exit (some 1)) (host.told d)
      else .ok () { host.told d with trace := [] } := by
  show (if host.fatal then throw (Failure.exit (some 1)) else _ : HostM Unit) (host.told d) = _
  cases host.fatal <;> rfl

/-- A failure is told of once. A defect then fails again. -/
theorem settle_eq {failure : Failure} {d : Diagnostic} (h : failure.diagnostic? = some d) :
    settle failure = (do error d; if failure.isDefect then throw failure) := by
  cases failure <;> cases h
  case defect => rfl
  all_goals exact bind_pure_unit.symm

section Handled
variable {α : Type} {activity : HostM α} {host after : Host} {failure : Failure} {d : Diagnostic}

/-- The diagnostic of a failure is written. Where it is not fatal, no file is being processed any
more, and there is no result, but a defect fails again. -/
theorem handled_of_error (h : activity host = .error failure after)
    (hd : failure.diagnostic? = some d) (hf : after.fatal = false) :
    handled activity host =
      if failure.isDefect then .error failure { after.told d with trace := [] }
      else .ok none { after.told d with trace := [] } := by
  have herror : error d after = .ok () { after.told d with trace := [] } := by
    rw [error_eq, hf]
    rfl
  simp only [handled, h]
  rw [settle_eq hd, bind_assoc, bind_of_ok herror]
  cases failure.isDefect <;> rfl

/-- Where it is fatal, the program ends with code 1. -/
theorem handled_of_fatal (h : activity host = .error failure after)
    (hd : failure.diagnostic? = some d) (hf : after.fatal = true) :
    handled activity host = .error (.exit (some 1)) (after.told d) := by
  have herror : error d after = .error (.exit (some 1)) (after.told d) := by
    rw [error_eq, hf]
    rfl
  simp only [handled, h]
  rw [settle_eq hd, bind_assoc, bind_of_error herror]

end Handled

end Host

end PrefixScript
