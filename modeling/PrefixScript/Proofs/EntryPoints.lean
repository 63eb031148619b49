import PrefixScript.CommandLine
import PrefixScript.Proofs.RunEnds
import PrefixScript.Proofs.SpacedTokens
import PrefixScript.Proofs.Surroundings

/-!
# Entry points

A source that is in no file can be run on a machine, on a session, or from the command line. All
three run it in the same way. On a session it has a path, which heads the warnings about import
directives in the source itself, and on the command line an error is told of and ends the program.
-/
namespace PrefixScript

open Assembly (Stage Reaches)

/-! ## A machine and a session -/

/-- How what happens while the tokens of a source are found is told of on a session: a warning about
a skipped file is headed by the session's path, if its directive is in the source itself. -/
inductive Event.Retold (source : String) (start : World) : Event → Event → Prop
  | opened (path : String) : Retold source start (.opened path) (.opened path)
  | skipped {stage : Stage} {text name : String} {more : List Piece}
      (hs : Reaches start.working source.toList ⟨.start start false, .ofPath none⟩ stage)
      (hl : stage.left = .directive text name :: more) :
      Retold source start (.wrote (Host.warning stage.chain (Assembly.skipped name)))
        (.wrote ((if stage.chain = [] then Styled.bold (Session.reserved ++ ": ") else []) ++
          Host.warning stage.chain (Assembly.skipped name)))

/-- What is looked for in other things than writing is found alike. -/
theorem Event.Retold.filterMap_eq {α : Type} {source : String} {start : World}
    {own own' : List Event} (h : List.Forall₂ (Event.Retold source start) own own')
    (f : Event → Option α) (hf : ∀ text, f (.wrote text) = none) :
    own.filterMap f = own'.filterMap f := by
  induction h with
  | nil => rfl
  | cons he _ ih =>
    cases he with
    | opened path => rw [List.filterMap_cons, List.filterMap_cons, ih]
    | skipped hs hl => rw [List.filterMap_cons_none (hf _), List.filterMap_cons_none (hf _), ih]

/-- The worlds that two runs of a source leave are the same but for some warnings: the tokens were
found in the same way, and the program did the same. -/
structure World.Retells (source : String) (start first second : World) : Prop where
  rest : second = { first with log := second.log }
  events : ∃ ran own own', first.log = ran ++ (own ++ start.log) ∧
    second.log = ran ++ (own' ++ start.log) ∧ List.Forall₂ (Event.Retold source start) own own'

namespace World.Retells
variable {source : String} {start first second : World}

/-- Warnings are no pauses. -/
theorem delays (h : Retells source start first second) : first.delays = second.delays := by
  obtain ⟨ran, own, own', hfirst, hsecond, hown⟩ := h.events
  simp only [World.delays, hfirst, hsecond, List.reverse_append, List.filterMap_append]
  rw [Event.Retold.filterMap_eq (List.rel_reverse hown) _ fun _ => rfl]

/-- The program does the same on top. -/
theorem alongside (h : Retells source start first second) {machine other : Machine}
    (ha : Machine.Alongside (.start first) (.start second) machine other) :
    Retells source start machine.world other.world := by
  obtain ⟨ran, own, own', hfirst, hsecond, hown⟩ := h.events
  obtain ⟨more, hlog, rfl⟩ := ha
  refine ⟨rfl, more ++ ran, own, own', ?_, ?_, hown⟩
  · rw [hlog, List.append_assoc]
    exact congrArg (more ++ ·) hfirst
  · rw [List.append_assoc]
    exact congrArg (more ++ ·) hsecond

end World.Retells

namespace Host

/-- A file around others heads the warnings only where there are no others. -/
theorem warning_cons (path : String) (chain : List String) (d : Diagnostic) :
    warning (path :: chain) d =
      (if chain = [] then Styled.bold (path ++ ": ") else []) ++ warning chain d := by
  cases chain with
  | nil => rfl
  | cons next rest => simp [warning, location, List.getLast?_cons_cons]

/-- Where a source is assembled on a session, what is done is retold. -/
theorem Abreast.retells {source : String} {world : World} {t s' t' : Host}
    (h : Abreast [Session.reserved] (Assembly.Told [Session.reserved]
      (Reaches world.working source.toList ⟨.start world false, .ofPath none⟩))
      (.start world false) t s' t')
    (ht : t.world.log = world.log) :
    World.Retells source world s'.world t'.world := by
  obtain ⟨own, own', hs, ht', hown⟩ := h.events
  refine ⟨h.beside.world, [], own, own', hs, ht' ▸ ht ▸ rfl, hown.imp ?_⟩
  rintro _ _ (path | ⟨hstage, hl⟩)
  · exact .opened path
  · obtain ⟨paths, -, -, htrace⟩ := hstage.trace_eq
    rw [htrace fun _ _ _ => List.not_mem_nil]
    show Event.Retold source world (.wrote (warning _ _)) (.wrote (warning (_ :: _) _))
    rw [warning_cons]
    exact .skipped hstage hl

end Host

/-- The tokens of a source in no file are found in the working directory, and then parsed. -/
theorem Host.ends_compile {limits : Limits} {source : String} {host : Host}
    {ok : List Node → Host → Prop} {bad : Failure → Host → Prop} :
    Ends (Host.compile limits source) host ok bad ↔
      Ends (Host.tokenize host.world.working none source) host
        (fun tokens host => Ends (Host.parse limits tokens) host ok bad) bad := by
  rw [Host.compile, ends_bind, ends_get, ends_bind]

section Alike
variable {limits : Limits} {source : String} {world : World} {α : Type}

/-- On a new machine the tokens of a source are found, parsed and run. -/
theorem Machine.ends_runSource {ok : Frames × Table Declaration → Machine → Prop}
    {bad : Failure → Machine → Prop} :
    Ends (do Machine.runSource limits source; let machine ← get; return machine.memory)
        (.start world) ok bad ↔
      Ends (Host.tokenize world.working none source) (.start world false)
        (fun tokens host => Ends (Host.parse limits tokens) host
          (fun program host => Ends (Evaluation.run limits.rounds limits.depth program)
            (.start host.world) (fun _ machine => ok machine.memory machine) bad)
          fun failure host => bad failure (.start host.world))
        fun failure host => bad failure (.start host.world) := by
  rw [ends_bind]
  show _ ↔ Ends (Host.tokenize (Host.start world false).world.working none source) _ _ _
  rw [← Host.ends_compile]
  unfold Ends Machine.runSource
  simp only [Machine.start]
  cases Host.compile limits source (.start world false) with
  | error failure host => rfl
  | ok program host =>
    simp only
    cases Evaluation.run limits.rounds limits.depth program ⟨.initial, .empty, host.world⟩ <;> rfl

theorem Session.tokenize_interactive (source : String) (host : Host) :
    interactive.tokenize source host = Host.tokenize host.world.working none source host := by
  show Host.tokenize (interactive.directory _) (interactive.located? _) source host = _
  rw [directory_interactive, located?_interactive]

/-- On a session they are found behind the session's path, which is left at the end. -/
theorem Session.ends_interactive {fatal : Bool} {ok : Frames × Table Declaration → Host → Prop}
    {bad : Failure → Host → Prop} :
    Ends (Machine.memory <$> Session.interactive.run limits (some source)) (.start world fatal)
        ok bad ↔
      Ends (Host.tokenize world.working none source) ⟨world, fatal, [Session.reserved]⟩
        (fun tokens host => Ends (Host.parse limits tokens) host
          (fun program host => Ends (Evaluation.run limits.rounds limits.depth program)
            (.start host.world)
            (fun _ machine => ok machine.memory
              { host with world := machine.world, trace := host.trace.erase Session.reserved })
            fun failure machine => bad failure { host with world := machine.world })
          bad)
        bad := by
  simp only [← bind_pure_comp, ends_bind, ends_run_text, tokenize, ends_get, directory_interactive,
    located?_interactive, finish, Host.ends_evaluate, ends_pure]
  rfl

/-- A machine and a session end alike: where the tokens are not found, where they are not parsed,
and where the program fails or not. -/
theorem runSource_alike (limits : Limits) (source : String) (world : World) (fatal : Bool) :
    EndAlike (fun machine host => World.Retells source world machine.world host.world)
      (fun _ machine host => World.Retells source world machine.world host.world)
      (do Machine.runSource limits source; let machine ← get; return machine.memory)
      (Machine.memory <$> Session.interactive.run limits (some source)) (.start world)
      (.start world fatal) := by
  have ho : ∀ path ∈ [Session.reserved], Path.absolute path ≠ path := by decide
  have hbeside : Host.Beside [Session.reserved] (.start world false)
      ⟨world, fatal, [Session.reserved]⟩ := ⟨rfl, rfl⟩
  have htokens := Host.tokenize_alike ho hbeside world.working source none
  rw [endAlike_iff] at htokens
  simp only [endAlike_iff, Machine.ends_runSource, Session.ends_interactive]
  refine htokens.mono (fun tokens first hok => ?_) fun failure first hbad => hbad.mono ?_ ?_
  · obtain ⟨found, second, ht, rfl, habreast⟩ := hok.exists_ok_and
    have hretells := habreast.retells rfl
    have hsecond : ∀ ok bad, Ends (Host.tokenize world.working none source)
        ⟨world, fatal, [Session.reserved]⟩ ok bad ↔ ok found second := fun _ _ => by rw [Ends, ht]
    simp only [hsecond, Host.ends_parse]
    cases Parse.tokens limits.nesting found with
    | error failure left => exact ⟨rfl, hretells⟩
    | ok program left =>
      have hst : Machine.start second.world = { Machine.start first.world with
          world := { first.world with log := second.world.log } } :=
        congrArg Machine.start hretells.rest
      have hrun := endAlike_iff.1
        ((Evaluation.run_heedless limits.rounds limits.depth program).alongside hst)
      refine hrun.mono (fun _ machine hok => hok.mono ?_ fun _ _ h => h)
        fun failure machine hbad => hbad.mono (fun _ _ h => h) ?_
      · rintro _ other ⟨-, halongside⟩
        refine ⟨?_, hretells.alongside halongside⟩
        obtain ⟨own, -, rfl⟩ := halongside
        rfl
      · exact fun _ other h => ⟨h.1, hretells.alongside h.2⟩
  · exact fun _ _ h => h.elim
  · exact fun _ second h => ⟨h.1, h.2.retells rfl⟩

end Alike

/-! ## A session and the command line -/

namespace CommandLine

theorem classify_command (text : List Char) :
    classify ("--command=".toList ++ text) = .ok (.option .command (.value text)) := by
  have hdivide : divide ("--command=".toList ++ text) = ("--command".toList, .value text) := rfl
  have hfull : spellings.lookup ("--command=".toList ++ text) = none := by
    simp [spellings, List.lookup]
  have hfront : spellings.lookup "--command".toList = some .command := by decide
  have hshape : "--command=".toList ++ text = '-' :: '-' :: ("command=".toList ++ text) := rfl
  rw [classify, hdivide]
  simp only [hfull, hfront]
  rw [hshape]
  rfl

/-- A text that is attached to its option is what is to be run, unless it is the divider. -/
theorem demand_command (source : String) :
    demand ["--command=" ++ source] =
      .run ⟨none, some (if source = "--" then "" else source), false⟩ := by
  have hdivider : "--command=" ++ source ≠ "--" := by
    intro h
    have hlength := congrArg String.length h
    rw [String.length_append, show "--command=".length = 10 by decide,
      show "--".length = 2 by decide] at hlength
    omega
  have hattached : attachedCommand source.toList = if source = "--" then "" else source := by
    by_cases h : source = "--"
    · rw [h]
      rfl
    · have htext : source.toList ≠ ['-', '-'] := fun he => h (String.toList_inj.1 he)
      rw [attachedCommand, if_neg htext, if_neg h, String.ofList_toList]
  have hwords : words ["--command=" ++ source] =
      .ok [.option .command (.value source.toList)] := by
    rw [words, if_neg hdivider, String.toList_append, classify_command]
    rfl
  rw [demand, hwords, ← hattached]
  rfl

/-- A text is run on a host whose errors are fatal. -/
theorem Request.run_text (limits : Limits) (text : String) (colour : Bool) (world : World) :
    Request.run limits ⟨none, some text, false⟩ colour world =
      match Host.handled (Session.interactive.run limits (some text)) (.start world true) with
      | .ok _ host => ⟨0, "", colour, host.world⟩
      | .error (.exit code) host => ⟨code.getD 0, "", colour, host.world⟩
      | .error _ host => ⟨1, "", colour, host.world⟩ := by
  cases colour <;> rfl

/-- How the program ends that runs a text, from how a session ends that runs it. -/
theorem Request.ends_session (limits : Limits) (text : String) (world : World)
    (fatal colour : Bool) :
    Ends (Session.interactive.run limits (some text)) (.start world fatal)
      (fun _ after =>
        Request.run limits ⟨none, some text, false⟩ colour world = ⟨0, "", colour, after.world⟩)
      fun failure after => failure = .unfinished ∨ ∃ d, failure.diagnostic? = some d ∧
        Request.run limits ⟨none, some text, false⟩ colour world =
          ⟨1, "", colour, after.world.write (Host.report after.trace d)⟩ := by
  have halike := Session.interactive.run_of_fatal limits (some text) (.start world fatal) true
  have harises := Session.interactive.run_arises limits (some text) (.start world fatal)
  rw [endAlike_iff] at halike
  simp only [← bind_pure_comp, ends_bind, ends_pure] at halike
  rw [Request.run_text]
  refine (halike.and harises).mono ?_ ?_
  · rintro machine after ⟨hother, -⟩
    obtain ⟨other, left, hrun, -, rfl⟩ := hother.exists_ok_and
    have hfatal : Session.interactive.run limits (some text) (.start world true) =
        .ok other { after with fatal := true } := hrun
    simp only [Host.handled, hfatal]
  · rintro failure after ⟨hother, ha⟩
    by_cases hu : failure = .unfinished
    · exact .inl hu
    · obtain ⟨d, hd⟩ := ha.exists_diagnostic hu
      refine .inr ⟨d, hd, ?_⟩
      cases hrun : Session.interactive.run limits (some text) (.start world true) with
      | ok other left => exact (hother.of_ok hrun).elim
      | error cause left =>
        obtain ⟨rfl, rfl⟩ := hother.of_error hrun
        rw [Host.handled_of_fatal hrun hd rfl]
        rfl

end CommandLine

/-- A source that is in no file is run alike on a new machine, on a session and from the command
line. On a machine and on a session it leaves the same frames and functions or the same failure, and
the same world but for the heads of warnings: those about directives in the source itself are headed
by the session's path. On the command line, attached to its option, it ends the program with code 0
exactly if the session's run succeeds, and leaves the same world. If that run fails, whether its
errors are fatal or not, the program ends with code 1, and has written the one diagnostic of the
failure on top. Only the divider does not stand for itself there: instead, the empty text is run. -/
theorem entry_points_agree (limits : Limits) (source : String) (world : World)
    (fatal colour : Bool) :
    EndAlike
      (fun machine host => World.Retells source world machine.world host.world ∧
        machine.world.delays = host.world.delays)
      (fun _ machine host => World.Retells source world machine.world host.world ∧
        machine.world.delays = host.world.delays)
      (do Machine.runSource limits source; let machine ← get; return machine.memory)
      (Machine.memory <$> Session.interactive.run limits (some source)) (.start world)
      (.start world fatal) ∧
    Ends (Session.interactive.run limits (some (if source = "--" then "" else source)))
      (.start world fatal)
      (fun _ after => CommandLine.run limits ["--command=" ++ source] colour world =
        ⟨0, "", colour, after.world⟩)
      fun failure after => failure = .unfinished ∨ ∃ d, failure.diagnostic? = some d ∧
        CommandLine.run limits ["--command=" ++ source] colour world =
          ⟨1, "", colour, after.world.write (Host.report after.trace d)⟩ := by
  constructor
  · exact (runSource_alike limits source world fatal).mono (fun _ _ h => ⟨h, h.delays⟩)
      fun _ _ _ h => ⟨h, h.delays⟩
  · have hrun : CommandLine.run limits ["--command=" ++ source] colour world =
        CommandLine.Request.run limits ⟨none, some (if source = "--" then "" else source), false⟩
          colour world := by
      rw [CommandLine.run, CommandLine.demand_command]
    rw [hrun]
    exact CommandLine.Request.ends_session limits _ world fatal colour

/-- The divider, attached to the option: nothing is run, and the program ends with code 0. A session
that runs it as a source fails, since an operand is missing. -/
theorem divider_not_run :
    let world : World := ⟨.empty, [], fun _ => 0, 0, [], "/"⟩
    CommandLine.run .standard ["--command=--"] false world = ⟨0, "", false, world⟩ ∧
    Session.interactive.run .standard (some "--") (.start world true) =
      .error (.fault (.unexpectedToken .ending)) ⟨world, true, ["<in>"]⟩ := by
  intro world
  have hrun {text : String} {tokens : List Token}
      (hscan : (Scan.ofText text.toList).bare = ⟨tokens.map .token, []⟩) :
      Session.interactive.run .standard (some text) (.start world true) =
        Session.interactive.finish .standard (tokens ++ [.ending]) ⟨world, true, ["<in>"]⟩ := by
    have htokens : Session.interactive.tokenize text ⟨world, true, ["<in>"]⟩ =
        .ok (tokens ++ [.ending]) ⟨world, true, ["<in>"]⟩ := by
      rw [Session.tokenize_interactive, Host.tokenize, Assembly.tokens_of_scan hscan]
    have henter : Session.interactive.enter (some text) (.start world true) =
        .ok text ⟨world, true, ["<in>"]⟩ := rfl
    rw [Session.run_eq, bind_of_ok henter, bind_of_ok htokens]
  have hempty : (Scan.ofText "".toList).bare = ⟨[].map .token, []⟩ := by cbv
  have hdashes : (Scan.ofText "--".toList).bare =
      ⟨[⟨.minus, "-"⟩, ⟨.minus, "-"⟩].map .token, []⟩ := by cbv
  constructor
  · have hdemand := CommandLine.demand_command "--"
    rw [if_pos rfl] at hdemand
    rw [CommandLine.run, show "--command=--" = "--command=" ++ "--" from rfl, hdemand]
    simp only [CommandLine.Request.run_text, Host.handled, hrun hempty]
    rfl
  · rw [hrun hdashes]
    rfl

end PrefixScript
