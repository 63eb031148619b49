import PrefixScript.Proofs.FileChain
import PrefixScript.Proofs.SingleReading

/-!
# The chain of files of a run

A run enters the path of its session, and what it imports is entered behind it. None of these files
is the session's own, so a run that starts with no file in the chain keeps its path at the start of
it. Where the run fails, the chain ends with the file at fault. A run that starts with files in the
chain puts those of them that it enters itself at the end.
-/
namespace PrefixScript
open Assembly (Stage Reaches Innermost Gains)

namespace Host
variable {limits : Limits} {host : Host}

/-- Parsing does nothing to the host. -/
theorem ends_parse {ok : List Node → Host → Prop} {bad : Failure → Host → Prop}
    (tokens : List Token) :
    Ends (parse limits tokens) host ok bad ↔
      match Parse.tokens limits.nesting tokens with
      | .ok program _ => ok program host
      | .error failure _ => bad failure host := by
  unfold Ends parse
  cases Parse.tokens limits.nesting tokens <;> rfl

/-- A program does to the host what it does on a new machine in its world. -/
theorem ends_evaluate {ok : Machine → Host → Prop} {bad : Failure → Host → Prop}
    (program : List Node) :
    Ends (evaluate limits program) host ok bad ↔
      Ends (Evaluation.run limits.rounds limits.depth program) (.start host.world)
        (fun _ machine => ok machine { host with world := machine.world })
        fun failure machine => bad failure { host with world := machine.world } := by
  unfold Ends evaluate
  cases Evaluation.run limits.rounds limits.depth program (.start host.world) <;> rfl

/-- A host after a path was opened. -/
def asked (host : Host) (path : String) : Host := { host with world := (host.world.read path).2 }

end Host

namespace Session

/-- A run up to the point where its text is known and its path is entered. -/
def enter (session : Session) (source : Option String) : HostM String := do
  let text ← match source with
    | some text => pure text
    | none => session.load
  Host.enter session.path
  return text

/-- What a run does with its tokens. -/
def finish (limits : Limits) (session : Session) (tokens : List Token) : HostM Machine := do
  let program ← Host.parse limits tokens
  let machine ← Host.evaluate limits program
  Host.leave session.path
  return machine

theorem run_eq (limits : Limits) (session : Session) (source : Option String) :
    session.run limits source =
      session.enter source >>= fun text => session.tokenize text >>= session.finish limits := by
  cases source <;> simp only [run, enter, bind_assoc, pure_bind] <;> rfl

/-- The stages at which the assembly of a text arrives, for the host of a session. -/
abbrev Stages (session : Session) (host : Host) (text : String) : Stage → Prop :=
  Reaches (session.directory host.world.working) text.toList (session.assembly host)

section Steps
variable {session : Session} {limits : Limits} {host after : Host} {tokens : List Token}

/-- The session's file is opened in the working directory. -/
theorem ends_load {ok : String → Host → Prop} {bad : Failure → Host → Prop} :
    Ends session.load host ok bad ↔
      match session.file? with
      | none => bad (.fault (.reservedPath session.path)) host
      | some path =>
        match host.world.files.read (host.world.seen path) with
        | .text text => ok text (host.asked (host.world.seen path))
        | .unreadable => bad (.fault (.unreadableSource path)) (host.asked (host.world.seen path))
        | .nullInPath => bad (.defect .nullInPath) (host.asked (host.world.seen path)) := by
  unfold load
  cases session.file? with
  | none => rfl
  | some path =>
    simp only [ends_bind, ends_get, ends_set, World.read]
    cases host.world.files.read (host.world.seen path) <;> rfl

theorem load_trace (session : Session) (host : Host) :
    Ends session.load host (fun _ after => after.trace = host.trace)
      fun _ after => after.trace = host.trace := by
  rw [ends_load]
  split
  · rfl
  · split <;> rfl

/-- Only a run without a source can fail before it enters its path. -/
theorem ends_enter (session : Session) (source : Option String) (host : Host) :
    Ends (session.enter source) host
      (fun _ begun => begun.trace = host.trace ++ [session.path])
      fun failure after => source = none ∧ session.load host = .error failure after ∧
        after.trace = host.trace := by
  cases source with
  | some text => rfl
  | none =>
    have hload := session.load_trace host
    rw [enter, ends_bind]
    cases hl : session.load host with
    | ok text loaded =>
      rw [Ends, hl]
      show loaded.trace ++ [session.path] = _
      rw [hload.of_ok hl]
    | error failure after =>
      rw [Ends, hl]
      exact ⟨rfl, rfl, hload.of_error hl⟩

/-- The session's own file is not among those that are read for it. -/
theorem path_notMem {assembled : Assembly} {paths : List String}
    (h : Gains (session.assembly host) assembled paths) : session.path ∉ paths := by
  intro hm
  have hfresh := h.fresh _ hm
  obtain ⟨ha, -⟩ := h.found _ hm
  by_cases hr : session.path = reserved
  · rw [hr] at ha
    exact absurd ha (by decide)
  · have hfile : session.located? host.world.working = some session.path := by
      rw [located?, file?, if_neg hr, Option.map_some, Path.join_of_absolute ha]
    refine hfresh ?_
    rw [assembly, hfile]
    exact (Table.contains_insert _ _ _ _).2 (.inl rfl)

/-- A run of a text enters the path, finds the tokens, and goes on with them. -/
theorem ends_run_text {ok : Machine → Host → Prop} {bad : Failure → Host → Prop} (text : String) :
    Ends (session.run limits (some text)) host ok bad ↔
      Ends (session.tokenize text) { host with trace := host.trace ++ [session.path] }
        (fun tokens after => Ends (session.finish limits tokens) after ok bad) bad := by
  have henter : session.enter (some text) host =
      .ok text { host with trace := host.trace ++ [session.path] } := rfl
  rw [run_eq, ends_bind_of_ok henter, ends_bind]

theorem evaluate_trace (limits : Limits) (program : List Node) (host : Host) :
    Ends (Host.evaluate limits program) host (fun _ after => after.trace = host.trace)
      fun _ after => after.trace = host.trace := by
  rw [Host.ends_evaluate, Ends]
  split <;> rfl

/-- The session's path is left where the program has run. Otherwise the chain is as it was. -/
theorem ends_finish (limits : Limits) (session : Session) (tokens : List Token) (middle : Host) :
    Ends (session.finish limits tokens) middle
      (fun _ after => after.trace = middle.trace.erase session.path)
      fun failure after => after.trace = middle.trace ∧
        ((after = middle ∧ ∃ left, Parse.tokens limits.nesting tokens = .error failure left) ∨
          ∃ program left, Parse.tokens limits.nesting tokens = .ok program left ∧
            Host.evaluate limits program middle = .error failure after) := by
  cases hp : Parse.tokens limits.nesting tokens with
  | error failure left =>
    have hparse : Host.parse limits tokens middle = .error failure middle := by
      rw [Host.parse, hp]
    rw [Ends, finish, bind_of_error hparse]
    exact ⟨rfl, .inl ⟨rfl, left, rfl⟩⟩
  | ok program left =>
    have hparse : Host.parse limits tokens middle = .ok program middle := by
      rw [Host.parse, hp]
    have htrace := evaluate_trace limits program middle
    rw [finish, ends_bind_of_ok hparse]
    cases hv : Host.evaluate limits program middle with
    | error failure after =>
      rw [Ends, bind_of_error hv]
      exact ⟨htrace.of_error hv, .inr ⟨program, left, rfl, hv⟩⟩
    | ok machine after =>
      rw [ends_bind_of_ok hv]
      show after.trace.erase session.path = _
      rw [htrace.of_ok hv]

end Steps

/-! ## Runs that start with no file in the chain -/

/-- How a run fails that starts with no file in the chain, and which chain it leaves: none if the
session's file cannot be loaded, the session's path alone if the text is not parsed or the program
fails, and the session's path with the imports behind it that are being expanded, if the tokens are
not found. In the last case the innermost file is to blame. -/
inductive Blames (limits : Limits) (session : Session) (source : Option String) (host : Host) :
    Failure → Host → Prop
  | unloaded {failure : Failure} {after : Host} (hs : source = none)
      (h : session.load host = .error failure after) (ht : after.trace = []) :
      Blames limits session source host failure after
  | untokenized {text : String} {begun after : Host} {failure : Failure} {stage : Stage}
      {inner : List Char} (he : session.enter source host = .ok text begun)
      (h : session.tokenize text begun = .error failure after)
      (hr : session.Stages begun text stage)
      (ht : after.trace = session.path :: stage.chain)
      (hi : Innermost begun.world.files text.toList stage.chain inner)
      (hs : stage.Processes inner) (hb : stage.Blames inner failure) :
      Blames limits session source host failure after
  | unparsed {text : String} {begun middle : Host} {tokens left : List Token} {failure : Failure}
      (he : session.enter source host = .ok text begun)
      (h : session.tokenize text begun = .ok tokens middle)
      (hp : Parse.tokens limits.nesting tokens = .error failure left)
      (ht : middle.trace = [session.path]) : Blames limits session source host failure middle
  | unevaluated {text : String} {begun middle after : Host} {tokens left : List Token}
      {program : List Node} {failure : Failure} (he : session.enter source host = .ok text begun)
      (h : session.tokenize text begun = .ok tokens middle)
      (hp : Parse.tokens limits.nesting tokens = .ok program left)
      (hv : Host.evaluate limits program middle = .error failure after)
      (ht : after.trace = [session.path]) : Blames limits session source host failure after

/-- What is written while the tokens of a text are found are warnings of skipped files, each of them
headed by the innermost file at the stage of its directive. -/
def WarnsInPlace (session : Session) (text : String) (begun after : Host) : Prop :=
  ∃ events, after.world.log = events ++ begun.world.log ∧
    ∀ written, .wrote written ∈ events → ∃ stage inner content name more,
      session.Stages begun text stage ∧
      Innermost begun.world.files text.toList stage.chain inner ∧ stage.Processes inner ∧
      stage.left = .directive content name :: more ∧
      written = Host.warning (session.path :: stage.chain) (Assembly.skipped name) ∧
      Styled.bold ((session.path :: stage.chain).getLast (List.cons_ne_nil _ _) ++ ": ") <+: written

section Chain
variable {session : Session} {limits : Limits} {host begun after : Host} {text : String}
  {stage : Stage}

/-- A chain of the session's path alone holds none of the files that are read. -/
theorem notMem_trace (ht : begun.trace = [session.path]) {assembled : Assembly}
    {paths : List String} (h : Gains (session.assembly begun) assembled paths) :
    ∀ path ∈ paths, path ∉ begun.trace := by
  intro path hm hpath
  rw [ht] at hpath
  exact path_notMem h (List.mem_singleton.1 hpath ▸ hm)

/-- At each stage the chain has the session's path in front of the files that are being
processed. -/
theorem trace_of_reaches (ht : begun.trace = [session.path])
    (h : session.Stages begun text stage) :
    stage.now.trace = session.path :: stage.chain := by
  obtain ⟨paths, hgains, -, htrace⟩ := h.trace_eq
  rw [htrace fun path hm _ => notMem_trace ht hgains path hm]
  show begun.trace ++ _ = _
  rw [ht]
  rfl

/-- If the tokens are found, the chain is as it was. If they are not, it ends with the file to
blame. -/
theorem tokenize_blames (ht : begun.trace = [session.path]) (text : String) :
    Ends (session.tokenize text) begun (fun _ after => after.trace = [session.path])
      fun failure after => ∃ stage inner,
        session.Stages begun text stage ∧
        after.trace = session.path :: stage.chain ∧
        Innermost begun.world.files text.toList stage.chain inner ∧ stage.Processes inner ∧
        stage.Blames inner failure := by
  rw [ends_tokenize]
  have hchain := Assembly.tokensFrom_obeys_chain (Assembly.depthBound begun.world.files)
    (session.directory begun.world.working) text.toList [] (session.assembly begun)
  have hreads := Assembly.tokensFrom_reads (session.directory begun.world.working) text.toList
    (session.assembly begun)
  have hfails := Assembly.tokensFrom_fails (Assembly.depthBound begun.world.files)
    (session.directory begun.world.working) text.toList [] (session.assembly begun)
  refine ((hchain.and hreads).and hfails).mono ?_ ?_
  · rintro found after ⟨⟨⟨paths, hgains, htrace⟩, -⟩, -⟩
    show after.trace = _
    rw [htrace, Host.displaced_of_disjoint (notMem_trace ht hgains)]
    exact ht
  · rintro failure after ⟨⟨-, hne, -⟩, hstage⟩
    obtain ⟨stage, hreach, hfail⟩ := hstage.resolve_left hne
    obtain ⟨inner, hinner, hprocesses⟩ := hreach.innermost
    refine ⟨stage, inner, hreach, ?_, hinner, hprocesses, hfail.blames hprocesses⟩
    show after.trace = _
    rw [hfail.trace_eq, trace_of_reaches ht hreach]

theorem tokenize_warns (ht : begun.trace = [session.path]) (text : String) :
    Ends (session.tokenize text) begun (fun _ after => session.WarnsInPlace text begun after)
      fun _ after => session.WarnsInPlace text begun after := by
  have hplace (after : Assembly)
      (h : Assembly.Warns (session.Stages begun text) (session.assembly begun) after) :
      session.WarnsInPlace text begun after.host := by
    obtain ⟨events, hlog, hevents⟩ := h
    refine ⟨events, hlog, fun written hm => ?_⟩
    obtain ⟨stage, content, name, more, hreach, hleft, hwritten⟩ := hevents written hm
    rw [trace_of_reaches ht hreach] at hwritten
    obtain ⟨inner, hinner, hprocesses⟩ := hreach.innermost
    refine ⟨stage, inner, content, name, more, hreach, hinner, hprocesses, hleft, hwritten, ?_⟩
    rw [hwritten, Host.warning, Host.location, List.getLast?_eq_some_getLast (List.cons_ne_nil _ _),
      List.append_assoc, List.append_assoc, List.append_assoc]
    exact List.prefix_append _ _
  rw [ends_tokenize]
  exact (Assembly.tokensFrom_warns _ _ _ _ _).mono (fun _ after h => hplace after h)
    fun _ after h => hplace after h

/-- Where the tokens are found, the chain is as if the files read for them had been entered and
left, and the session's own is not among these. -/
theorem tokenize_returns (session : Session) (host : Host) (text : String) :
    Ends (session.tokenize text) host
      (fun _ after => ∃ asked, after.world.opened = host.world.opened ++ asked ∧ asked.Nodup ∧
        session.path ∉ asked ∧ after.trace = Host.displaced host.trace asked) fun _ _ => True := by
  rw [ends_tokenize]
  have hchain := Assembly.tokensFrom_obeys_chain (Assembly.depthBound host.world.files)
    (session.directory host.world.working) text.toList [] (session.assembly host)
  refine hchain.mono (fun found after h => ?_) fun _ _ h => h
  obtain ⟨asked, hgains, htrace⟩ := h
  exact ⟨asked, hgains.opened, hgains.nodup, path_notMem hgains, htrace⟩

/-- Some files have been left again since the innermost one was entered, and the chain ends with the
innermost one exactly if an earlier chain held none of these. -/
def InnermostLast (start : Host) (earlier : List String) (stage : Stage) (innermost : String) :
    Prop :=
  ∃ front finished, stage.now.opened = start.world.opened ++ front ++ finished ∧
    front.getLast? = stage.chain.getLast? ∧
    (stage.now.trace.getLast? = some innermost ↔ ∀ path ∈ finished, path ∉ earlier)

theorem innermostLast_of_import {innermost : String}
    (h : session.Stages host text stage)
    (hi : stage.chain.getLast? = some innermost) :
    InnermostLast host host.trace stage innermost := by
  obtain ⟨front, finished, hgains, hsubset, hlast, htrace⟩ := h.getLast?_trace
  have hn : innermost ∉ finished := fun hm => (List.nodup_append.1 hgains.nodup).2.2 innermost
    (hsubset (List.mem_of_getLast? hi)) innermost hm rfl
  have hopened := hgains.opened
  rw [← List.append_assoc] at hopened
  exact ⟨front, finished, hopened, hlast, htrace innermost (by simp [hi]) hn⟩

/-- The session's path is the innermost file where no import is being processed. -/
theorem innermostLast_of_entered (ht : begun.trace = host.trace ++ [session.path])
    (h : session.Stages begun text stage) :
    InnermostLast begun host.trace stage
      ((session.path :: stage.chain).getLast (List.cons_ne_nil _ _)) := by
  obtain ⟨front, finished, hgains, hsubset, hlast, htrace⟩ := h.getLast?_trace
  have hown : session.path ∉ finished := fun hm =>
    path_notMem hgains (List.mem_append_right front hm)
  have hn : (session.path :: stage.chain).getLast (List.cons_ne_nil _ _) ∉ finished := by
    intro hm
    have hlast := List.getLast_mem (List.cons_ne_nil session.path stage.chain)
    rcases List.mem_cons.1 hlast with he | he
    · exact hown (he ▸ hm)
    · exact (List.nodup_append.1 hgains.nodup).2.2 _ (hsubset he) _ hm rfl
  have hopened := hgains.opened
  rw [← List.append_assoc] at hopened
  refine ⟨front, finished, hopened, hlast, ?_⟩
  have hstart : (session.assembly begun).trace = host.trace ++ [session.path] := ht
  rw [hstart, List.append_assoc] at htrace
  have hall := htrace _ (by simp [List.getLast?_eq_some_getLast]) hn
  rw [hall]
  refine forall₂_congr fun path hm => ?_
  have hne : path ≠ session.path := fun he => hown (he ▸ hm)
  simp [hne]

end Chain

end Session

/-- A run that starts with no file in the chain leaves none if it succeeds. If it fails, the chain
that it leaves ends with the file at fault. The warnings that are written while the tokens are found
name the file in which their directive stands. -/
theorem trace_names_file_at_fault (limits : Limits) (session : Session) (source : Option String)
    (host : Host) (ht : host.trace = []) :
    Ends (session.run limits source) host (fun _ after => after.trace = [])
      (fun failure after => session.Blames limits source host failure after) ∧
    ∀ text begun, session.enter source host = .ok text begun →
      Ends (session.tokenize text) begun (fun _ after => session.WarnsInPlace text begun after)
        fun _ after => session.WarnsInPlace text begun after := by
  have henter := session.ends_enter source host
  rw [ht] at henter
  refine ⟨?_, fun text begun he => Session.tokenize_warns (henter.of_ok he) text⟩
  rw [Session.run_eq]
  cases he : session.enter source host with
  | error failure after =>
    obtain ⟨hs, hload, htrace⟩ := henter.of_error he
    rw [Ends, bind_of_error he]
    exact .unloaded hs hload htrace
  | ok text begun =>
    have hends := Session.tokenize_blames (henter.of_ok he) text
    rw [ends_bind_of_ok he]
    cases hk : session.tokenize text begun with
    | error failure after =>
      obtain ⟨stage, inner, hreach, htrace, hinner, hprocesses, hblames⟩ := hends.of_error hk
      rw [Ends, bind_of_error hk]
      exact .untokenized he hk hreach htrace hinner hprocesses hblames
    | ok tokens middle =>
      have hmiddle := hends.of_ok hk
      rw [ends_bind_of_ok hk]
      refine (session.ends_finish limits tokens middle).mono (fun _ after h => ?_) ?_
      · rw [h, hmiddle, List.erase_cons_head]
      · rintro failure after ⟨htrace, ⟨rfl, left, hp⟩ | ⟨program, left, hp, hv⟩⟩
        · exact .unparsed he hk hp hmiddle
        · exact .unevaluated he hk hp hv (htrace.trans hmiddle)

/-- A quote is not closed in an imported file, and this file is the last one of the chain. -/
theorem trace_names_imported_file :
    let files : Files := Table.empty.insert "/a" "'".toUTF8
    let host : Host := .start ⟨files, [], fun _ => 0, 0, [], "/"⟩ true
    host.trace = [] ∧ ∃ failure after,
      Session.interactive.run .standard (some "IMP \"a\"") host = .error failure after ∧
      after.trace = ["<in>", "/a"] ∧
      Session.interactive.Blames .standard (some "IMP \"a\"") host failure after := by
  intro files host
  have hempty : host.trace = [] := rfl
  have hread : host.world.files.read "/a" = .text "'" :=
    Files.read_insert _ (by decide) (by decide) (by decide) (by decide)
  have hbound : Assembly.depthBound host.world.files = 3 := rfl
  clear_value files
  have hsource : Scan.ofText "IMP \"a\"".toList = ⟨[.directive "IMP \"a\"" "a"], []⟩ := by cbv
  have hinner : Scan.ofText ("'".toList ++ ['\n']) = ⟨[], ['\'', '\n']⟩ := by cbv
  have hfresh : ¬ (Included.ofPath none).contains (Files.key "/a") := by decide
  generalize "IMP \"a\"" = source at hsource ⊢
  have hends : Ends (Session.interactive.run .standard (some source)) host
      (fun _ _ => False) fun _ after => after.trace = ["<in>", "/a"] := by
    rw [Session.ends_run_text, Session.ends_tokenize]
    show Ends (Assembly.tokensFrom (Assembly.depthBound host.world.files)
      (Session.interactive.directory "/") _ _) _ _ _
    rw [hbound, Session.directory_interactive, Assembly.ends_tokensFrom, hsource]
    simp only [Assembly.collect, ends_bind]
    rw [Assembly.ends_expand_of_text (show "/a" = _ by decide) hfresh hread,
      Assembly.ends_tokensFrom, hinner]
    rfl
  have hblames := trace_names_file_at_fault .standard .interactive (some source) host hempty
  cases h : Session.interactive.run .standard (some source) host with
  | ok machine after => exact (hends.of_ok h).elim
  | error failure after => exact ⟨hempty, _, _, rfl, hends.of_error h, hblames.1.of_error h⟩

/-- Whatever files are in the chain before, the tokens of a source and a run of it leave the same
files in the chain if they succeed, with those at the end that were entered on the way. So the chain
is the same if it held none of them. While a file is processed, it is the last one of the chain
exactly if none of the files that were entered in it and left again was in the chain before. -/
theorem chain_after_success (limits : Limits) (session : Session) (source : Option String)
    (host : Host) :
    (∀ text,
      Ends (session.tokenize text) host
        (fun _ after => ∃ asked, after.world.opened = host.world.opened ++ asked ∧
          Host.Restored host.trace asked after.trace) (fun _ _ => True) ∧
      ∀ stage, session.Stages host text stage →
        ∀ file ∈ stage.chain.getLast?, Session.InnermostLast host host.trace stage file) ∧
    Ends (session.run limits source) host
      (fun _ after => ∃ text begun tokens middle asked,
        session.enter source host = .ok text begun ∧
        session.tokenize text begun = .ok tokens middle ∧
        middle.world.opened = begun.world.opened ++ asked ∧
        Host.Restored host.trace (session.path :: asked) after.trace) (fun _ _ => True) ∧
    ∀ text begun, session.enter source host = .ok text begun →
      ∀ stage, session.Stages begun text stage →
        Session.InnermostLast begun host.trace stage
          ((session.path :: stage.chain).getLast (List.cons_ne_nil _ _)) := by
  have henter := session.ends_enter source host
  refine ⟨fun text => ⟨?_, fun stage h file hf => Session.innermostLast_of_import h hf⟩, ?_,
    fun text begun he stage h => Session.innermostLast_of_entered (henter.of_ok he) h⟩
  · refine (session.tokenize_returns host text).mono (fun tokens after h => ?_) fun _ _ h => h
    obtain ⟨asked, hopened, hnodup, -, htrace⟩ := h
    exact ⟨asked, hopened, htrace ▸ Host.restored_displaced hnodup⟩
  · rw [Session.run_eq]
    cases he : session.enter source host with
    | error failure after =>
      rw [Ends, bind_of_error he]
      trivial
    | ok text begun =>
      have hbegun : begun.trace = host.trace ++ [session.path] := henter.of_ok he
      rw [ends_bind_of_ok he]
      cases hk : session.tokenize text begun with
      | error failure after =>
        rw [Ends, bind_of_error hk]
        trivial
      | ok tokens middle =>
        obtain ⟨asked, hopened, hnodup, hown, htrace⟩ :=
          (session.tokenize_returns begun text).of_ok hk
        rw [ends_bind_of_ok hk]
        refine (session.ends_finish limits tokens middle).mono (fun _ after h => ?_)
          fun _ _ _ => trivial
        rw [htrace, hbegun, Host.displaced_leave hown] at h
        refine ⟨text, begun, tokens, middle, asked, rfl, hk, hopened, ?_⟩
        rw [h]
        exact Host.restored_displaced (List.nodup_cons.2 ⟨hown, hnodup⟩)

/-- The chain holds the session's file and an imported one before. When the imported file is left,
its earlier mention goes, so it is still the last one when the session's own text goes on, and a
warning about a directive in this text is headed by it. At the end the files have changed their
order. -/
theorem chain_out_of_order :
    let files : Files := (Table.empty.insert "/b" "'".toUTF8).insert "/a" "IMP \"b\"".toUTF8
    let host : Host := ⟨⟨files, [], fun _ => 0, 0, [], "/"⟩, true, ["<in>", "/a", "/b"]⟩
    ∃ machine after,
      Session.run .standard ⟨"/b"⟩ (some "IMP \"a\" IMP \"a\"") host = .ok machine after ∧
      after.trace = ["<in>", "/b", "/a"] ∧
      .wrote (Host.warning ["<in>", "/b", "/b", "/a"] (Assembly.skipped "a")) ∈
        after.world.log := by
  intro files host
  have hread : host.world.files.read "/a" = .text "IMP \"b\"" :=
    Files.read_insert _ (by decide) (by decide) (by decide) (by decide)
  have hbound : Assembly.depthBound host.world.files = 5 := rfl
  clear_value files
  have hsource : Scan.ofText "IMP \"a\" IMP \"a\"".toList =
      ⟨[.directive "IMP \"a\"" "a", .blank " ", .directive "IMP \"a\"" "a"], []⟩ := by cbv
  have hinner : Scan.ofText ("IMP \"b\"".toList ++ ['\n']) =
      ⟨[.directive "IMP \"b\"" "b", .blank "\n"], []⟩ := by cbv
  have hfresh : ¬ (Included.ofPath (some "/b")).contains (Files.key "/a") := by decide
  have hown : ((Included.ofPath (some "/b")).insert (Files.key "/a") ()).contains
      (Files.key "/b") := by decide
  have hagain : ((Included.ofPath (some "/b")).insert (Files.key "/a") ()).contains
      (Files.key "/a") := by decide
  generalize "IMP \"a\" IMP \"a\"" = source at hsource ⊢
  apply Ends.exists_ok_and
  rw [Session.ends_run_text, Session.ends_tokenize]
  show Ends (Assembly.tokensFrom (Assembly.depthBound host.world.files)
    (Session.directory ⟨"/b"⟩ "/") _ _) ⟨_, .ofPath (Session.located? ⟨"/b"⟩ "/")⟩ _ _
  rw [hbound, show Session.directory ⟨"/b"⟩ "/" = "/" by decide,
    show Session.located? ⟨"/b"⟩ "/" = some "/b" by decide, Assembly.ends_tokensFrom, hsource]
  simp only [Assembly.collect, ends_bind, ends_pure, if_true]
  rw [Assembly.ends_expand_of_text (show "/a" = _ by decide) hfresh hread,
    Assembly.ends_tokensFrom, hinner]
  simp only [Assembly.collect, ends_bind, ends_pure, if_true]
  refine (Assembly.ends_expand_of_included (show "/b" = _ by decide) hown).2 ?_
  refine (Assembly.ends_expand_of_included (show "/a" = _ by decide) hagain).2 ?_
  exact ⟨rfl, .head _⟩

end PrefixScript
