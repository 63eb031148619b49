import PrefixScript.Proofs.IndependentRuns
import PrefixScript.Proofs.TameRuns

/-!
# Colours

A terminal with colours is sent control sequences around the words of reports that are set bold. All
else that it is sent, and all that is seen of a session besides, is as without colours. This rests
on texts that have no control sequences themselves, so that the ones that are deleted again are
exactly those that were put in.
-/
namespace PrefixScript

/-! ## Deleting the control sequences -/

namespace Text

/-- A text without the control sequences for bold words, for the two colours, and for their end. -/
def dropCodes : List Char → List Char
  | '\x1b' :: '[' :: '1' :: 'm' :: rest => dropCodes rest
  | '\x1b' :: '[' :: '3' :: '1' :: 'm' :: rest => dropCodes rest
  | '\x1b' :: '[' :: '3' :: '5' :: 'm' :: rest => dropCodes rest
  | '\x1b' :: '[' :: '0' :: 'm' :: rest => dropCodes rest
  | c :: rest => c :: dropCodes rest
  | [] => []

def withoutCodes (text : String) : String := String.ofList (dropCodes text.toList)

/-- Nothing of a text is deleted, whatever comes after it. -/
def Inert (text : List Char) : Prop := ∀ rest, dropCodes (text ++ rest) = text ++ dropCodes rest

theorem dropCodes_cons {c : Char} (hc : c ≠ lead) (rest : List Char) :
    dropCodes (c :: rest) = c :: dropCodes rest := by
  rw [dropCodes.eq_def]
  split <;> simp_all [lead]

theorem Tame.inert {text : String} (h : Tame text) : Inert text.toList := by
  intro rest
  unfold Tame at h
  generalize text.toList = chars at h
  induction chars with
  | nil => rfl
  | cons c chars ih =>
    rw [List.mem_cons, not_or] at h
    rw [List.cons_append, dropCodes_cons (Ne.symm h.1), ih h.2, List.cons_append]

/-- The sequence that clears the screen is another one. -/
theorem inert_clearScreen : Inert Operator.clearScreen.toList := by
  intro rest
  have hchars : Operator.clearScreen.toList = ['\x1b', '[', '2', 'J', '\x1b', '[', 'H'] := by decide
  rw [hchars]
  simp [dropCodes]

/-- The sequence that clears the screen stays. -/
example : withoutCodes "\x1b[1m\x1b[31ma\x1b[0m\x1b[2Jb" = "a\x1b[2Jb" := by decide

theorem dropCodes_bold (rest : List Char) :
    dropCodes ("\x1b[1m".toList ++ rest) = dropCodes rest := rfl

theorem dropCodes_ink (ink : Ink) (rest : List Char) :
    dropCodes (ink.code.toList ++ rest) = dropCodes rest := by cases ink <;> rfl

theorem dropCodes_end (rest : List Char) :
    dropCodes ("\x1b[0m".toList ++ rest) = dropCodes rest := rfl

end Text

namespace Span

/-- Nothing of the text of a span is deleted, and the text is shown as it is. -/
def Inert : Span → Prop
  | plain text | bold _ text => Text.Inert text.toList
  | fitted _ _ => False

theorem Tame.inert {span : Span} (h : span.Tame) : span.Inert := by
  cases span with
  | plain text => exact Text.Tame.inert h
  | bold ink text => exact Text.Tame.inert h
  | fitted fit text => exact h.elim

/-- The sequences around a span are deleted, and nothing else is. -/
theorem dropCodes_render {span : Span} (h : span.Inert) (rest : List Char) :
    Text.dropCodes ((span.render true).toList ++ rest) =
      (span.render false).toList ++ Text.dropCodes rest := by
  cases span with
  | plain text => exact h rest
  | bold ink text =>
    have hink (rest : List Char) :
        Text.dropCodes (((ink.map Ink.code).getD "").toList ++ rest) = Text.dropCodes rest := by
      cases ink with
      | none => rfl
      | some ink => exact Text.dropCodes_ink ink rest
    have htext : Text.Inert text.toList := h
    simp only [render, marked, if_true, String.toList_append, List.append_assoc,
      Text.dropCodes_bold, hink, Bool.false_eq_true, if_false]
    rw [htext, Text.dropCodes_end]
  | fitted fit text => exact h.elim

end Span

namespace Styled

/-- Nothing of the texts of the spans is deleted. -/
def Inert (styled : Styled) : Prop := ∀ span ∈ styled, span.Inert

theorem Tame.inert {styled : Styled} (h : styled.Tame) : styled.Inert :=
  fun span hm => (h span hm).inert

theorem dropCodes_render {styled : Styled} (h : styled.Inert) (rest : List Char) :
    Text.dropCodes ((styled.render true).toList ++ rest) =
      (styled.render false).toList ++ Text.dropCodes rest := by
  induction styled with
  | nil => rfl
  | cons span styled ih =>
    obtain ⟨hspan, hstyled⟩ := List.forall_mem_cons.1 h
    have hcons (colour : Bool) : (render colour (span :: styled)).toList =
        (span.render colour).toList ++ (render colour styled).toList := by
      simp [render]
    rw [hcons, hcons, List.append_assoc, Span.dropCodes_render hspan, ih hstyled,
      List.append_assoc]

/-- What a terminal with colours is sent is what one without them is sent, and the sequences. -/
theorem withoutCodes_render {styled : Styled} (h : styled.Inert) :
    Text.withoutCodes (styled.render true) = styled.render false := by
  have hrender := dropCodes_render h []
  rw [List.append_nil, Text.dropCodes, List.append_nil] at hrender
  rw [Text.withoutCodes, hrender, String.ofList_toList]

end Styled

theorem World.Tame.inert_output {world : World} (h : world.Tame) : world.output.Inert := by
  intro span hm
  obtain ⟨event, he, hspan⟩ := List.mem_flatMap.1 hm
  cases event with
  | wrote text =>
    rcases h.written text (List.mem_reverse.1 he) with ht | rfl
    · exact ht.inert span hspan
    · rw [List.mem_singleton.1 hspan]
      exact Text.inert_clearScreen
  | slept seconds => exact absurd hspan List.not_mem_nil
  | opened path => exact absurd hspan List.not_mem_nil

/-! ## What is seen of a session -/

/-- The wording of an error or a warning, and what else is said. -/
structure ErrorText where
  category : Category
  wording : Wording
  details : Details

namespace ErrorText

/-- The diagnostic of an error text, which has to have words for all slots. -/
def diagnostic (told : ErrorText) : HostM Diagnostic :=
  match Diagnostic.worded told.category told.wording told.details with
  | .ok diagnostic => pure diagnostic
  | .error cause => throw (.defect cause)

theorem diagnostic_tame {told : ErrorText} (h : told.wording.Tame) :
    Tamely Host.Tame Diagnostic.Tame told.diagnostic := by
  have htame := @Diagnostic.tame_worded told.category _ told.details h
  unfold diagnostic
  cases hw : Diagnostic.worded told.category told.wording told.details with
  | ok diagnostic => exact .pure (htame.1 diagnostic hw)
  | error cause => exact .throw (htame.2 cause hw)

end ErrorText

/-- What is done with a session. -/
inductive Session.Step where
  /-- A run, of which failures are told if it is handled. -/
  | run (errand : Errand) (handled : Bool)
  | warn (told : ErrorText)
  | report (told : ErrorText)
  /-- A failure from elsewhere, which is handled. -/
  | raise (failure : Failure)
  | enter (path : String)
  | leave (path : String)

namespace Session.Step

/-- A run yields the frames and functions of its machine, other steps nothing. There is no result if
a failure was told of. -/
abbrev Result : Type :=
  EStateM.Result Failure Host (Option (Option (Frames × Table Declaration)))

/-- The host after a step. -/
def Result.host : Result → Host
  | .ok _ host => host
  | .error _ host => host

/-- What a step does on the host. -/
def perform : Step → HostM (Option (Option (Frames × Table Declaration)))
  | run errand true => do
    let memory ← errand.perform
    return memory.map some
  | run errand false => do
    let machine ← errand.session.run errand.limits errand.source
    return some (some machine.memory)
  | warn told => do
    Host.warn (← told.diagnostic)
    return some none
  | report told => do
    Host.error (← told.diagnostic)
    return some none
  | raise failure => do
    let result ← Host.handled (throw failure : HostM Unit)
    return result.map fun _ => none
  | enter path => do
    Host.enter path
    return some none
  | leave path => do
    Host.leave path
    return some none

/-- The results of some steps. Each of them is done, whatever became of the ones before, and with an
empty log. -/
def results : List Step → Host → List Result
  | [], _ => []
  | step :: rest, host =>
    let result : Result := step.perform { host with world := { host.world with log := [] } }
    result :: results rest result.host

/-- The texts that a step is given have no control sequences, and no word in them is fitted. -/
def Tame : Step → Prop
  | run errand _ =>
    Text.Tame errand.session.path ∧ ∀ text, errand.source = some text → Text.Tame text
  | warn told | report told => told.wording.Tame
  | raise failure => failure.Tame
  | enter path | leave path => Text.Tame path

theorem perform_tame {step : Step} (h : step.Tame) :
    Tamely Host.Tame (fun _ => True) step.perform := by
  cases step with
  | run errand handled =>
    have hrun := Session.run_tame errand.limits h.1 h.2
    cases handled with
    | true =>
      have hmemory : Tamely Host.Tame (fun _ => True)
          (Machine.memory <$> errand.session.run errand.limits errand.source) := by
        rw [← bind_pure_comp]
        exact .bind hrun fun _ _ => .pure trivial
      exact .bind (Host.handled_tame hmemory) fun _ _ => .pure trivial
    | false => exact .bind hrun fun _ _ => .pure trivial
  | warn told =>
    exact .bind (ErrorText.diagnostic_tame h) fun _ hd => .bind (Host.warn_tame hd) fun _ _ =>
      .pure trivial
  | report told =>
    exact .bind (ErrorText.diagnostic_tame h) fun _ hd => .bind (Host.error_tame hd) fun _ _ =>
      .pure trivial
  | raise failure =>
    have hraised : Tamely Host.Tame (fun _ => True) (throw failure : HostM Unit) := .throw h
    exact .bind (Host.handled_tame hraised) fun _ _ => .pure trivial
  | enter path => exact .bind (Host.enter_tame h) fun _ _ => .pure trivial
  | leave path => exact .bind (Host.leave_tame path) fun _ _ => .pure trivial

/-- A tame host after a step, and a tame failure if the step has one. -/
def Result.Tame : Result → Prop
  | .ok _ host => host.Tame
  | .error failure host => failure.Tame ∧ host.Tame

theorem Result.Tame.host {result : Result} (h : result.Tame) : result.host.Tame := by
  cases result with
  | ok _ host => exact h
  | error failure host => exact h.2

theorem results_tame {steps : List Step} {host : Host} (hh : host.Tame)
    (hs : ∀ step ∈ steps, step.Tame) : ∀ result ∈ results steps host, result.Tame := by
  induction steps generalizing host with
  | nil => exact List.forall_mem_nil _
  | cons step rest ih =>
    obtain ⟨hstep, hrest⟩ := List.forall_mem_cons.1 hs
    have hempty : Host.Tame { host with world := { host.world with log := [] } } :=
      ⟨⟨hh.world.files, hh.world.input, by simp, hh.world.working⟩, hh.trace⟩
    have hends := perform_tame hstep _ hempty
    have hresult : Result.Tame
        (step.perform { host with world := { host.world with log := [] } }) := by
      cases hr : step.perform { host with world := { host.world with log := [] } } with
      | ok memory after => exact (hends.of_ok hr).2
      | error failure after => exact hends.of_error hr
    exact List.forall_mem_cons.2 ⟨hresult, ih hresult.host hrest⟩

end Session.Step

/-- What shows of an error that comes out of a step. -/
structure Account where
  category : Category
  message : String
  subject : String
  start : Int
  stop : Int
  excerpt : Bool
  internal : Bool
  context : Context

/-- How a step ends. -/
inductive Ending where
  /-- It succeeds; a run, with the frames and functions of its machine. -/
  | done (memory : Option (Frames × Table Declaration))
  /-- Its failure is told of. -/
  | suppressed
  | exited (code : Option Int)
  | raised (account : Account)
  /-- Another failure comes out. -/
  | failed (failure : Failure)

/-- What is seen of a step: its end, what is written in it, the pauses, and the files in the chain
after it. -/
structure Sight where
  ending : Ending
  output : String
  delays : List Float
  trace : List String

namespace Sight
open Session (Step)

/-- An error as it shows with or without colours. -/
def account (colour : Bool) (d : Diagnostic) : Account :=
  ⟨d.category, d.message.render colour, d.subject, d.start, d.stop, d.excerpt, d.internal,
    d.context⟩

def endingOf (colour : Bool) : Step.Result → Ending
  | .ok (some memory) _ => .done memory
  | .ok none _ => .suppressed
  | .error (.fault fault) _ => .raised (account colour fault.diagnostic)
  | .error (.exit code) _ => .exited code
  | .error failure _ => .failed failure

/-- What is seen of a step with or without colours. -/
def of (colour : Bool) (result : Step.Result) : Sight where
  ending := endingOf colour result
  output := result.host.world.output.render colour
  delays := result.host.world.delays
  trace := result.host.trace

/-- What is seen of some steps with or without colours. -/
def ofSteps (colour : Bool) (steps : List Step) (host : Host) : List Sight :=
  (Step.results steps host).map (of colour)

/-- Everything written, in order. -/
def transcript (sights : List Sight) : String := String.join (sights.map Sight.output)

end Sight

/-- An error without the control sequences in its message. -/
def Account.withoutCodes (account : Account) : Account :=
  { account with message := Text.withoutCodes account.message }

def Ending.withoutCodes : Ending → Ending
  | .raised account => .raised account.withoutCodes
  | ending => ending

/-- The same without the control sequences in what is written and in the message of an error. All
else stays: frames and functions, codes, pauses, the chain, and the place an error points at. -/
def Sight.withoutCodes (sight : Sight) : Sight :=
  { sight with
    ending := sight.ending.withoutCodes
    output := Text.withoutCodes sight.output }

namespace Sight
open Session (Step)

theorem account_withoutCodes {d : Diagnostic} (h : d.Tame) :
    (account true d).withoutCodes = account false d := by
  simp only [account, Account.withoutCodes, Styled.withoutCodes_render h.message.inert]

theorem endingOf_withoutCodes {result : Step.Result} (h : result.Tame) :
    (endingOf true result).withoutCodes = endingOf false result := by
  cases result with
  | ok memory host => cases memory <;> rfl
  | error failure host =>
    cases failure with
    | fault fault => exact congrArg Ending.raised (account_withoutCodes h.1)
    | _ => rfl

theorem of_withoutCodes {result : Step.Result} (h : result.Tame) :
    (of true result).withoutCodes = of false result := by
  simp only [of, Sight.withoutCodes, endingOf_withoutCodes h,
    Styled.withoutCodes_render h.host.world.inert_output]

/-- What is written in some steps is one styled text. -/
theorem transcript_map_of (colour : Bool) (results : List Step.Result) :
    transcript (results.map (of colour)) =
      Styled.render colour (results.flatMap fun result => result.host.world.output) := by
  rw [← String.toList_inj]
  simp [transcript, Styled.render, of, List.flatMap_map, List.map_flatMap, List.flatMap_assoc]

end Sight

/-- Colours are presentation only, as long as no word is fitted into its message. On a host with
tame files, input and paths some steps are done with tame sources, paths and error texts: runs,
handled or not, warnings, errors that are told of or raised, and changes of the chain. Each step
ends with colours as without them, with the same frames and functions, the same code, or the same
error at the same place, and with the same pauses and the same chain. Deleting the control sequences
from what it writes, and from the message of the error that comes out of it, yields what is written
and said without colours, step by step and in all. -/
theorem colours_are_presentation {host : Host} {steps : List Session.Step} (hh : host.Tame)
    (hs : ∀ step ∈ steps, step.Tame) :
    Sight.ofSteps false steps host = (Sight.ofSteps true steps host).map Sight.withoutCodes ∧
      Sight.transcript (Sight.ofSteps false steps host) =
        Text.withoutCodes (Sight.transcript (Sight.ofSteps true steps host)) := by
  have htame := Session.Step.results_tame hh hs
  unfold Sight.ofSteps
  constructor
  · rw [List.map_map]
    refine List.map_congr_left fun result hm => ?_
    exact (Sight.of_withoutCodes (htame result hm)).symm
  · rw [Sight.transcript_map_of, Sight.transcript_map_of]
    refine (Styled.withoutCodes_render fun span hm => ?_).symm
    obtain ⟨result, hr, hspan⟩ := List.mem_flatMap.1 hm
    exact (htame result hr).host.world.inert_output span hspan

/-- A run clears the screen and fails, another one fails in an imported file, and its error comes
out; then a warning follows. -/
theorem colours_are_presentation_of_failures :
    let host : Host := .start ⟨Table.empty.insert "/a" "?".toUTF8, [], fun _ => 0, 0, [], "/"⟩ false
    let steps : List Session.Step :=
      [.run ⟨⟨9, 9, 9⟩, .interactive, some "wipe x"⟩ true,
        .run ⟨⟨9, 9, 9⟩, .interactive, some "IMP \"a\""⟩ false,
        .warn ⟨.general, ⟨"no \x7b\x7d", .given "y" [], .inr (by decide)⟩,
          ⟨none, none, none, none⟩⟩]
    Sight.transcript (Sight.ofSteps true steps host) =
        "\x1b[2J\x1b[H\x1b[1m<in>: \x1b[0m\x1b[1m\x1b[31merror: \x1b[0mundefined variable '" ++
          "\x1b[1mx\x1b[0m'\n\x1b[1m/a: \x1b[0m\x1b[1m\x1b[35mwarning: \x1b[0mno " ++
          "\x1b[1my\x1b[0m\n  \x1b[1m\x1b[35my\x1b[0m\n  \x1b[1m\x1b[35m^\x1b[0m\n" ∧
      Sight.ofSteps false steps host = (Sight.ofSteps true steps host).map Sight.withoutCodes ∧
        Sight.transcript (Sight.ofSteps false steps host) =
          Text.withoutCodes (Sight.transcript (Sight.ofSteps true steps host)) := by
  intro host steps
  have hfiles : host.world.files.Holds fun _ bytes =>
      ∀ text, String.fromUTF8? bytes = some text → Text.Tame text := by
    refine .insert .empty fun text ht => ?_
    rw [Files.fromUTF8?_toUTF8] at ht
    cases ht
    decide
  have hhost : host.Tame := by
    refine ⟨⟨hfiles, by decide, fun text hm => absurd hm List.not_mem_nil, by decide⟩, ?_⟩
    exact List.forall_mem_nil _
  have hrun (handled : Bool) {source : String} (h : Text.Tame source) :
      (Session.Step.run ⟨⟨9, 9, 9⟩, .interactive, some source⟩ handled).Tame :=
    ⟨(by decide : Text.Tame Session.reserved), fun text ht => Option.some.inj ht ▸ h⟩
  have hwarn : (steps[2]).Tame := by
    refine ⟨by decide, fun first rest hw => ?_, .inr (by decide)⟩
    cases hw
    decide
  have hsteps : ∀ step ∈ steps, step.Tame :=
    List.forall_mem_cons.2 ⟨hrun _ (by decide), List.forall_mem_cons.2
      ⟨hrun _ (by decide), List.forall_mem_singleton.2 hwarn⟩⟩
  exact ⟨by decide +kernel, colours_are_presentation hhost hsteps⟩

/-- The marks of a fitted word take up its room, so that less is filled up with colours. -/
theorem fitted_words_show_colours :
    let host : Host := .start ⟨.empty, [], fun _ => 0, 0, [], "/"⟩ false
    let told : ErrorText :=
      ⟨.general, ⟨"\x7b:>9\x7d", .given "y" [], .inr (by decide)⟩, ⟨none, none, none, none⟩⟩
    Text.Tame told.wording.template ∧ Text.Tame "y" ∧
      Sight.transcript (Sight.ofSteps false [.warn told] host) =
        "warning:         y\n  y\n  ^\n" ∧
      Text.withoutCodes (Sight.transcript (Sight.ofSteps true [.warn told] host)) =
        "warning: y\n  y\n  ^\n" ∧
      Sight.transcript (Sight.ofSteps false [.warn told] host) ≠
        Text.withoutCodes (Sight.transcript (Sight.ofSteps true [.warn told] host)) := by
  decide +kernel

end PrefixScript
