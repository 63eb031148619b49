import PrefixScript.Proofs.RunEnds
import PrefixScript.Proofs.Surroundings

/-!
# Handled runs are independent

On a host whose errors are not fatal, one run after the other may be handled, on sessions of any
path. Whatever became of the runs before, no file is being processed any more when the next one
starts, and this one does what it would do on a new host in the world that is left: nothing of the
files included before, of the functions registered, or of the frames that a failure left behind, is
found again.
-/
namespace PrefixScript

namespace Host
variable {s t : Host} {α : Type}

/-- A host on which some other things were done before. -/
def onto (host : Host) (past : List Event) : Host := { host with world := host.world.onto past }

/-- An activity that does the same in all surroundings does not change whether errors are fatal. -/
theorem Heedless.fatal {activity : HostM α} (h : Heedless [] activity) (host : Host) :
    Ends activity host (fun _ after => after.fatal = host.fatal)
      fun _ after => after.fatal = host.fatal := by
  refine Ends.mono (h host host ⟨rfl, rfl⟩) ?_ ?_
  · rintro a after ⟨_, -, hafter⟩
    exact hafter.fatal
  · rintro failure after ⟨_, -, hafter⟩
    exact hafter.fatal

/-- An error is told of in the same way, if it is fatal on both hosts or on none. -/
theorem error_alike (h : Beside [] s t) (hf : t.fatal = s.fatal) (d : Diagnostic) :
    EndAlike (Abreast [] Eq s t) (fun _ => Abreast [] Eq s t) (error d) (error d) s t := by
  have htrace : t.trace = s.trace := h.trace
  have htold : Abreast [] Eq s t (s.told d) (t.told d) := by
    refine .record h ?_
    rw [htrace]
  unfold EndAlike Ends
  rw [error_eq, error_eq, hf]
  cases s.fatal with
  | true => exact ⟨_, rfl, htold⟩
  | false =>
    obtain ⟨hbeside, hfatal, hother, hevents⟩ := htold
    exact ⟨_, rfl, ⟨hbeside.world, rfl⟩, hfatal, hother, hevents⟩

theorem settle_alike (h : Beside [] s t) (hf : t.fatal = s.fatal) (failure : Failure) :
    EndAlike (Abreast [] Eq s t) (fun _ => Abreast [] Eq s t) (settle failure) (settle failure)
      s t := by
  cases hd : failure.diagnostic? with
  | some d =>
    rw [settle_eq hd]
    refine (error_alike h hf d).bind fun _ s' t' _ _ hafter => ?_
    cases failure.isDefect with
    | true => exact ⟨t', rfl, hafter⟩
    | false => exact ⟨t', rfl, hafter⟩
  | none =>
    cases failure <;> cases hd
    all_goals exact ⟨t, rfl, .refl h⟩

/-- What an activity does alike, it does alike where its failure is handled. -/
theorem handled_alike {activity : HostM α} (ha : Heedless [] activity) (h : Beside [] s t)
    (hf : t.fatal = s.fatal) :
    EndAlike (Abreast [] Eq s t) (fun _ => Abreast [] Eq s t) (handled activity) (handled activity)
      s t := by
  have halike := ha s t h
  unfold EndAlike Ends at halike
  cases he : activity s with
  | ok a s' =>
    simp only [he] at halike
    obtain ⟨t', ht, hafter⟩ := halike
    simp only [EndAlike, Ends, handled, he, ht]
    exact ⟨t', rfl, hafter⟩
  | error failure s' =>
    simp only [he] at halike
    obtain ⟨t', ht, hafter⟩ := halike
    have hsettle := settle_alike hafter.beside
      (hafter.fatal_other.trans (hf.trans hafter.fatal.symm)) failure
    have hnone : EndAlike (Abreast [] Eq s t) (fun _ => Abreast [] Eq s t)
        (do settle failure; return none : HostM (Option α))
        (do settle failure; return none : HostM (Option α)) s' t' :=
      EndAlike.bind (hsettle.mono (fun _ _ h' => hafter.trans h') fun _ _ _ h' => hafter.trans h')
        fun _ _ t'' _ _ h' => ⟨t'', rfl, h'⟩
    simp only [EndAlike, Ends, handled, he, ht]
    exact hnone

/-- Where errors are not fatal, no file is being processed any more when a run was handled, unless
it goes on. -/
theorem ends_handled {activity : HostM α} {host : Host} (hf : host.fatal = false)
    (ha : Heedless [] activity)
    (hok : Ends activity host (fun _ after => after.trace = []) fun failure _ => failure.Arises) :
    Ends (handled activity) host (fun _ after => after.trace = [] ∧ after.fatal = false)
      fun failure after => failure ≠ .unfinished → after.trace = [] ∧ after.fatal = false := by
  have hfatal := ha.fatal host
  rw [hf] at hfatal
  cases he : activity host with
  | ok a after =>
    simp only [Ends, handled, he]
    exact ⟨hok.of_ok he, hfatal.of_ok he⟩
  | error failure after =>
    have hafter : after.fatal = false := hfatal.of_error he
    by_cases hu : failure = .unfinished
    · simp only [Ends, handled, he, hu]
      exact fun hn => absurd rfl hn
    · obtain ⟨d, hd⟩ := (hok.of_error he).exists_diagnostic hu
      rw [Ends, handled_of_error he hd hafter]
      cases failure.isDefect with
      | true => exact fun _ => ⟨rfl, hafter⟩
      | false => exact ⟨rfl, hafter⟩

end Host

/-- A run that is asked for, with its budgets: on a session, of a source or of the session's
file. -/
structure Errand where
  limits : Limits
  session : Session
  source : Option String

namespace Errand

/-- The run, handled. Its result are the frames and functions of the machine. -/
def perform (errand : Errand) : HostM (Option (Frames × Table Declaration)) :=
  Host.handled (Machine.memory <$> errand.session.run errand.limits errand.source)

variable {host : Host}

theorem ends_perform (errand : Errand) (ht : host.trace = []) (hf : host.fatal = false) :
    Ends errand.perform host (fun _ after => after.trace = [] ∧ after.fatal = false)
      fun failure after => failure ≠ .unfinished → after.trace = [] ∧ after.fatal = false := by
  have htrace := errand.session.run_trace errand.limits errand.source ht
  have harises := errand.session.run_arises errand.limits errand.source host
  refine Host.ends_handled hf (errand.session.run_heedless errand.limits errand.source) ?_
  rw [← bind_pure_comp, ends_bind]
  exact (htrace.and harises).mono (fun _ _ h => h.1) fun _ _ h => h.2

/-- On a host that is processing no file, an errand is done as on a new one, on top of what was done
before. -/
theorem perform_alike (errand : Errand) (ht : host.trace = []) (hf : host.fatal = false) :
    EndAlike (fun fresh after => after = fresh.onto host.world.log)
      (fun _ fresh after => after = fresh.onto host.world.log) errand.perform errand.perform
      (.start { host.world with log := [] } false) host := by
  have hbeside : Host.Beside [] (.start { host.world with log := [] } false) host := ⟨rfl, ht⟩
  have hsame (fresh after : Host)
      (h : Host.Abreast [] Eq (.start { host.world with log := [] } false) host fresh after) :
      after = fresh.onto host.world.log := by
    have hfatal : fresh.fatal = host.fatal := h.fatal.trans hf.symm
    obtain ⟨own, hlog, rfl⟩ := h.exists_eq
    rw [show own = fresh.world.log from (hlog.trans (List.append_nil own)).symm, ← hfatal]
    rfl
  exact (Host.handled_alike (errand.session.run_heedless errand.limits errand.source) hbeside
    hf).mono hsame fun _ => hsame

end Errand

/-- The hosts after some errands, whatever became of them. The world may change in any way in
between. There is no host after an errand that goes on for ever. -/
inductive Host.Served (start : Host) : Host → Prop
  | nothing : Served start start
  | meanwhile {host : Host} (h : Served start host) (world : World) :
    Served start { host with world }
  | done {host after : Host} {errand : Errand} {result : Option (Frames × Table Declaration)}
    (h : Served start host) (he : errand.perform host = .ok result after) : Served start after
  | raised {host after : Host} {errand : Errand} {failure : Failure} (h : Served start host)
    (he : errand.perform host = .error failure after) (hn : failure ≠ .unfinished) :
    Served start after

/-- Each errand finds the chain empty and leaves it empty. -/
theorem Host.Served.idle {world : World} {host : Host} (h : Served (.start world false) host) :
    host.trace = [] ∧ host.fatal = false := by
  induction h with
  | nothing => exact ⟨rfl, rfl⟩
  | meanwhile _ _ ih => exact ih
  | @done _ _ errand _ _ he ih => exact (errand.ends_perform ih.1 ih.2).of_ok he
  | @raised _ _ errand _ _ he hn ih => exact (errand.ends_perform ih.1 ih.2).of_error he hn

/-- Where errors are not fatal, handled runs are independent of each other. After any errands, no
file is being processed any more. The next errand ends as on a new host in the world that is left,
with the same frames and functions, or with its failure told of, or with the same defect, or not at
all; and what it writes, its pauses and the paths that it opens, its diagnostics and warnings
included, and all else that it does to the world are the same, on top of what was done before. -/
theorem handled_runs_independent {world : World} {host : Host}
    (h : Host.Served (.start world false) host) :
    host.trace = [] ∧ ∀ errand : Errand,
      EndAlike (fun fresh after => after = fresh.onto host.world.log)
        (fun _ fresh after => after = fresh.onto host.world.log) errand.perform errand.perform
        (.start { host.world with log := [] } false) host :=
  ⟨h.idle.1, fun errand => errand.perform_alike h.idle.1 h.idle.2⟩

/-- A run failed in an imported file, at a quote that is not closed. The next one imports that file
again: it is not skipped, and fails in the same way. -/
theorem handled_runs_independent_after_import :
    let world : World := ⟨Table.empty.insert "/a" "'".toUTF8, [], fun _ => 0, 0, [], "/"⟩
    let errand : Errand := ⟨.standard, .interactive, some "IMP \"a\""⟩
    ∃ host, errand.perform (.start world false) = .ok none host ∧
      Host.Served (.start world false) host ∧ host.world.opened = ["/a"] ∧ host.trace = [] ∧
      EndAlike (fun fresh after => after = fresh.onto host.world.log)
        (fun _ fresh after => after = fresh.onto host.world.log) errand.perform errand.perform
        (.start { host.world with log := [] } false) host := by
  intro world errand
  have hread : world.files.read "/a" = .text "'" :=
    Files.read_insert _ (by decide) (by decide) (by decide) (by decide)
  have hbound : Assembly.depthBound world.files = 3 := rfl
  have hlog : world.log = [] := rfl
  have hworking : world.working = "/" := rfl
  clear_value world
  have hends : Ends (Session.interactive.run .standard (some "IMP \"a\"")) (.start world false)
      (fun _ _ => False) fun failure after => (∃ fault, failure = .fault fault) ∧
        after.world.opened = ["/a"] ∧ after.fatal = false := by
    have hsource : Scan.ofText "IMP \"a\"".toList = ⟨[.directive "IMP \"a\"" "a"], []⟩ := by cbv
    have hinner : Scan.ofText ("'".toList ++ ['\n']) = ⟨[], ['\'', '\n']⟩ := by cbv
    have hfresh : ¬ (Included.ofPath none).contains (Files.key "/a") := by decide
    rw [Session.ends_run_text, Session.ends_tokenize]
    show Ends (Assembly.tokensFrom (Assembly.depthBound world.files)
      (Session.interactive.directory world.working) _ _) _ _ _
    rw [hbound, Session.directory_interactive, hworking, Assembly.ends_tokensFrom, hsource]
    simp only [Assembly.collect, ends_bind]
    rw [Assembly.ends_expand_of_text (show "/a" = _ by decide) hfresh hread,
      Assembly.ends_tokensFrom, hinner]
    refine ⟨⟨_, rfl⟩, ?_, rfl⟩
    show World.opened (world.read "/a").2 = ["/a"]
    rw [World.opened_read, World.opened, hlog]
    rfl
  obtain ⟨host, he, hopened⟩ : ∃ host, errand.perform (.start world false) = .ok none host ∧
      host.world.opened = ["/a"] := by
    cases hrun : Session.interactive.run .standard (some "IMP \"a\"") (.start world false) with
    | ok machine after => exact (hends.of_ok hrun).elim
    | error failure after =>
      obtain ⟨⟨fault, rfl⟩, hopened, hfatal⟩ := hends.of_error hrun
      have hmemory : (Machine.memory <$> Session.interactive.run .standard (some "IMP \"a\""))
          (.start world false) = .error (.fault fault) after := by
        simp only [Functor.map, EStateM.map, hrun]
      refine ⟨{ after.told fault.diagnostic with trace := [] }, ?_, ?_⟩
      · exact Host.handled_of_error hmemory rfl hfatal
      · exact (World.opened_write _ _).trans hopened
  clear_value errand
  have hserved : Host.Served (.start world false) host := .done .nothing he
  have hindependent := handled_runs_independent hserved
  exact ⟨host, he, hserved, hopened, hindependent.1, hindependent.2 errand⟩

end PrefixScript
