import PrefixScript.Proofs.EarlierEvents
import PrefixScript.Proofs.SessionChain

/-!
# Other surroundings

The host of a run may have done other things before, other files may be being processed around the
run, and errors may be fatal or not. None of this changes what a run does. The only trace that the
surroundings leave are the warnings about skipped files: they name the innermost file, and where no
file is being processed inside of the surroundings, that is a file of these.
-/
namespace PrefixScript

namespace Host

/-- Two hosts that differ at most in what was done before, in whether errors are fatal, and in the
files that are being processed around those of the first one. -/
structure Beside (outer : List String) (s t : Host) : Prop where
  world : t.world = { s.world with log := t.world.log }
  trace : t.trace = outer ++ s.trace

/-- From two hosts things were done side by side, each as something that corresponds to it, and
apart from these the hosts still differ only in their surroundings. -/
structure Abreast (outer : List String) (told : Event → Event → Prop) (s t s' t' : Host) :
    Prop where
  beside : Beside outer s' t'
  fatal : s'.fatal = s.fatal
  fatal_other : t'.fatal = t.fatal
  events : ∃ own own', s'.world.log = own ++ s.world.log ∧ t'.world.log = own' ++ t.world.log ∧
    List.Forall₂ told own own'

namespace Abreast
variable {outer : List String} {told : Event → Event → Prop} {s t s' t' s'' t'' : Host}

theorem refl (h : Beside outer s t) : Abreast outer told s t s t :=
  ⟨h, rfl, rfl, [], [], rfl, rfl, .nil⟩

theorem trans (h : Abreast outer told s t s' t') (h' : Abreast outer told s' t' s'' t'') :
    Abreast outer told s t s'' t'' := by
  obtain ⟨own, own', hs, ht, hown⟩ := h.events
  obtain ⟨more, more', hs', ht', hmore⟩ := h'.events
  refine ⟨h'.beside, h'.fatal.trans h.fatal, h'.fatal_other.trans h.fatal_other, more ++ own,
    more' ++ own', ?_, ?_, List.rel_append hmore hown⟩
  · rw [hs', hs, List.append_assoc]
  · rw [ht', ht, List.append_assoc]

theorem mono (h : Abreast outer told s t s' t') {told' : Event → Event → Prop}
    (hm : ∀ event other, told event other → told' event other) :
    Abreast outer told' s t s' t' := by
  obtain ⟨own, own', hs, ht, hown⟩ := h.events
  exact ⟨h.beside, h.fatal, h.fatal_other, own, own', hs, ht, hown.imp hm⟩

/-- Where no files are around and the same was done, the hosts differ only as they did before. -/
theorem exists_eq (h : Abreast [] Eq s t s' t') :
    ∃ own, s'.world.log = own ++ s.world.log ∧
      t' = ⟨{ s'.world with log := own ++ t.world.log }, t.fatal, s'.trace⟩ := by
  obtain ⟨⟨hworld, htrace⟩, -, hfatal, own, own', hlog, hlog', hown⟩ := h
  obtain rfl : own = own' := by rwa [List.forall₂_eq_eq_eq] at hown
  rw [hlog'] at hworld
  refine ⟨own, hlog, ?_⟩
  obtain ⟨world, fatal, trace⟩ := t'
  obtain rfl : world = _ := hworld
  obtain rfl : fatal = _ := hfatal
  obtain rfl : trace = _ := htrace
  rfl

/-- One thing was done by each host. -/
theorem record (h : Beside outer s t) {event other : Event} (he : told event other) :
    Abreast outer told s t { s with world := s.world.record event }
      { t with world := t.world.record other } where
  beside := ⟨congrArg (World.record · other) h.world, h.trace⟩
  fatal := rfl
  fatal_other := rfl
  events := ⟨[event], [other], rfl, rfl, .cons he .nil⟩

end Abreast

end Host

namespace Assembly
open Host (Beside)

/-- How what happens while a source is assembled is told of in other surroundings: paths are opened
alike, and of a skipped file a warning is written, with the chain of the stage of its directive
behind the files around it. -/
inductive Told (outer : List String) (reached : Stage → Prop) : Event → Event → Prop
  | opened (path : String) : Told outer reached (.opened path) (.opened path)
  | skipped {stage : Stage} {text name : String} {more : List Piece} (hs : reached stage)
      (hl : stage.left = .directive text name :: more) :
      Told outer reached (.wrote (Host.warning stage.now.trace (skipped name)))
        (.wrote (Host.warning (outer ++ stage.now.trace) (skipped name)))

/-- Two assemblies with the same included files have done the same side by side. -/
structure Abreast (outer : List String) (reached : Stage → Prop) (s t s' t' : Assembly) :
    Prop where
  host : Host.Abreast outer (Told outer reached) s.host t.host s'.host t'.host
  included : t'.included = s'.included

namespace Abreast
variable {outer : List String} {reached others : Stage → Prop} {s t s' t' s'' t'' : Assembly}

theorem refl (h : Beside outer s.host t.host) (hi : t.included = s.included) :
    Abreast outer reached s t s t :=
  ⟨.refl h, hi⟩

theorem trans (h : Abreast outer reached s t s' t') (h' : Abreast outer reached s' t' s'' t'') :
    Abreast outer reached s t s'' t'' :=
  ⟨h.host.trans h'.host, h'.included⟩

/-- Stages inside of a file are stages of the source that imports it. -/
theorem inside {path : String} (h : Abreast outer others s t s' t')
    (hi : ∀ stage, others stage → reached { stage with chain := path :: stage.chain }) :
    Abreast outer reached s t s' t' := by
  refine ⟨h.host.mono ?_, h.included⟩
  rintro _ _ (path | ⟨hs, hl⟩)
  · exact .opened path
  · have hskipped : Told outer reached _ _ := .skipped (hi _ hs) hl
    exact hskipped

variable (h : Beside outer s.host t.host) (hi : t.included = s.included)
include h hi

theorem warned {stage : Stage} {text name : String} {more : List Piece} (hs : reached stage)
    (hl : stage.left = .directive text name :: more) (hn : stage.now = s) :
    Abreast outer reached s t (s.warned name) (t.warned name) := by
  subst hn
  refine ⟨.record h ?_, hi⟩
  rw [show t.trace = outer ++ stage.now.trace from h.trace]
  exact .skipped hs hl

theorem asked (path : String) : Abreast outer reached s t (s.asked path) (t.asked path) :=
  ⟨.record h (.opened path), hi⟩

theorem entered (path : String) :
    Abreast outer reached s t (s.entered path) (t.entered path) := by
  have hasked : Abreast outer reached s t (s.asked path) (t.asked path) := asked h hi path
  obtain ⟨hbeside, hfatal, hother, hevents⟩ := hasked.host
  refine ⟨⟨⟨hbeside.world, ?_⟩, hfatal, hother, hevents⟩, ?_⟩
  · show t.trace ++ [path] = outer ++ (s.trace ++ [path])
    rw [show t.trace = outer ++ s.trace from h.trace, List.append_assoc]
  · rw [included_entered, included_entered, hi]

omit h hi in
/-- A file that is left is none of those around. -/
theorem left (h : Abreast outer reached s t s' t') {path : String} (hp : path ∉ outer) :
    Abreast outer reached s t (s'.left path) (t'.left path) := by
  obtain ⟨⟨hbeside, hfatal, hother, hevents⟩, hi⟩ := h
  refine ⟨⟨⟨hbeside.world, ?_⟩, hfatal, hother, hevents⟩, hi⟩
  show t'.trace.erase path = outer ++ s'.trace.erase path
  rw [show t'.trace = outer ++ s'.trace from hbeside.trace, List.erase_append_right _ hp]

end Abreast

/-- In other surroundings a source is assembled in the same way. -/
def AssembledAlike (outer : List String)
    (find : String → List Char → List Token → AssemblyM (List Token)) : Prop :=
  ∀ directory source earlier s t, Beside outer s.host t.host → t.included = s.included →
    EndAlike (Abreast outer (Reaches directory source s) s t)
      (fun _ => Abreast outer (Reaches directory source s) s t) (find directory source earlier)
      (find directory source earlier) s t

section Alike
variable {outer : List String} (ho : ∀ path ∈ outer, Path.absolute path ≠ path)
include ho

theorem expand_alike {inner : String → List Char → List Token → AssemblyM (List Token)}
    (hinner : AssembledAlike outer inner) {directory text name : String} {source : List Char}
    {before s t : Assembly} {more : List Piece}
    (hs : Reaches directory source before
      ⟨[], directory, source, .directive text name :: more, s⟩)
    (h : Beside outer s.host t.host) (hi : t.included = s.included) (earlier : List Token) :
    EndAlike (Abreast outer (Reaches directory source before) s t)
      (fun _ => Abreast outer (Reaches directory source before) s t)
      (expand inner directory name earlier) (expand inner directory name earlier) s t := by
  have hp := Path.absolute_absolute (Path.join directory name)
  have hfiles : t.files = s.files := by rw [files, h.world]
  simp only [endAlike_iff, ends_expand inner directory name earlier rfl, hi, hfiles]
  split
  · exact ⟨trivial, .warned h hi hs rfl rfl⟩
  · rename_i hc
    cases hr : s.files.read (Path.absolute (Path.join directory name)) with
    | nullInPath => exact ⟨trivial, .asked h hi _⟩
    | unreadable => exact ⟨trivial, .asked h hi _⟩
    | text content =>
      have hentered : Abreast outer (Reaches directory source before) s t _ _ :=
        .entered h hi (Path.absolute (Path.join directory name))
      have hout : Path.absolute (Path.join directory name) ∉ outer := fun hm => ho _ hm hp
      have halike := hinner (Path.parent (Path.absolute (Path.join directory name)))
        (content.toList ++ ['\n']) earlier _ _ hentered.host.beside hentered.included
      refine (endAlike_iff.1 halike).mono (fun found s' hok => ?_) fun failure s' hbad => ?_
      · refine hok.mono ?_ fun _ _ h => h
        rintro _ t' ⟨rfl, hinside⟩
        have hall := hinside.inside fun _ hstage => Reaches.inside hs rfl hc hr hstage
        exact ⟨rfl, (hentered.trans hall).left hout⟩
      · refine hbad.mono (fun _ _ h => h) ?_
        rintro _ t' ⟨rfl, hinside⟩
        have hall := hinside.inside fun _ hstage => Reaches.inside hs rfl hc hr hstage
        exact ⟨rfl, hentered.trans hall⟩

/-- The induction goes from the first pieces of a source to those with one more at the end. -/
theorem collect_alike {depth : Nat} (hinner : AssembledAlike outer (tokensFrom depth))
    (directory : String) (source : List Char) (earlier : List Token) {s t : Assembly}
    (h : Beside outer s.host t.host) (hi : t.included = s.included) (first : List Piece) :
    ∀ left, (Scan.ofText source).pieces = first ++ left →
      EndAlike (Abreast outer (Reaches directory source s) s t)
        (fun _ => Abreast outer (Reaches directory source s) s t)
        (collect (expand (tokensFrom depth) directory) first earlier)
        (collect (expand (tokensFrom depth) directory) first earlier) s t := by
  induction first using List.reverseRecOn with
  | nil => exact fun left _ => ⟨t, rfl, .refl h hi⟩
  | append_singleton first piece ih =>
    intro left hs
    rw [List.append_assoc, List.singleton_append] at hs
    rw [collect_append]
    refine (ih (piece :: left) hs).bind fun found s' t' hfirst _ habreast => ?_
    cases piece with
    | token token => exact ⟨t', rfl, habreast⟩
    | comment content => exact ⟨t', rfl, habreast⟩
    | blank content => exact ⟨t', rfl, habreast⟩
    | directive text name =>
      have halike := expand_alike ho hinner (.here hs hfirst) habreast.host.beside
        habreast.included found
      refine EndAlike.bind (halike.mono (fun _ _ h' => habreast.trans h')
        fun _ _ _ h' => habreast.trans h') ?_
      exact fun tokens s'' t'' _ _ hafter => ⟨t'', rfl, hafter⟩

/-- The induction is on the depth of the imports. -/
theorem tokensFrom_alike (depth : Nat) : AssembledAlike outer (tokensFrom depth) := by
  induction depth with
  | zero => exact fun directory source earlier s t h hi => ⟨t, rfl, .refl h hi⟩
  | succ depth ih =>
    intro directory source earlier s t h hi
    have hpieces := collect_alike ho ih directory source earlier h hi _ [] (List.append_nil _).symm
    refine EndAlike.bind hpieces fun found s' t' _ _ hafter => ?_
    cases (Scan.ofText source).rest with
    | nil => exact ⟨t', rfl, hafter⟩
    | cons c rest => exact ⟨t', rfl, hafter⟩

end Alike

end Assembly

/-- The frames and functions of a machine. -/
def Machine.memory (machine : Machine) : Frames × Table Declaration :=
  (machine.frames, machine.functions)

namespace Host
variable {outer : List String} {s t : Host} {α β : Type}

theorem tokenize_alike (ho : ∀ path ∈ outer, Path.absolute path ≠ path) (h : Beside outer s t)
    (directory source : String) (path : Option String) :
    EndAlike
      (Abreast outer
        (Assembly.Told outer (Assembly.Reaches directory source.toList ⟨s, .ofPath path⟩)) s t)
      (fun _ => Abreast outer
        (Assembly.Told outer (Assembly.Reaches directory source.toList ⟨s, .ofPath path⟩)) s t)
      (tokenize directory path source) (tokenize directory path source) s t := by
  have hfiles : t.world.files = s.world.files := by rw [h.world]
  have halike := Assembly.tokensFrom_alike ho (Assembly.depthBound s.world.files) directory
    source.toList [] ⟨s, .ofPath path⟩ ⟨t, .ofPath path⟩ h rfl
  rw [endAlike_iff] at halike
  simp only [endAlike_iff, ends_tokenize, Assembly.ends_tokens, Assembly.files, hfiles]
  refine halike.mono (fun found s' hok => hok.mono ?_ fun _ _ hbad => hbad) fun failure s' hbad =>
    hbad.mono (fun _ _ hok => hok) ?_
  · rintro _ t' ⟨rfl, hafter⟩
    exact ⟨rfl, hafter.host⟩
  · rintro _ t' ⟨rfl, hafter⟩
    exact ⟨rfl, hafter.host⟩

/-- An activity does the same in all surroundings. -/
def Heedless (outer : List String) (activity : HostM α) : Prop :=
  ∀ s t, Beside outer s t →
    EndAlike (Abreast outer Eq s t) (fun _ => Abreast outer Eq s t) activity activity s t

namespace Heedless

theorem pure (a : α) : Heedless outer (Pure.pure a) := fun _ t h => ⟨t, rfl, .refl h⟩

theorem bind {activity : HostM α} {next : α → HostM β} (h : Heedless outer activity)
    (hn : ∀ a, Heedless outer (next a)) : Heedless outer (activity >>= next) := by
  intro s t hst
  refine (h s t hst).bind fun a s' t' _ _ hfirst => ?_
  exact (hn a s' t' hfirst.beside).mono (fun _ _ hnext => hfirst.trans hnext)
    fun _ _ _ hnext => hfirst.trans hnext

theorem enter (path : String) : Heedless outer (Host.enter path) := by
  intro s t h
  refine ⟨_, rfl, ⟨h.world, ?_⟩, rfl, rfl, [], [], rfl, rfl, .nil⟩
  show t.trace ++ [path] = outer ++ (s.trace ++ [path])
  rw [h.trace, List.append_assoc]

theorem leave (path : String) : Heedless [] (Host.leave path) := by
  intro s t h
  refine ⟨_, rfl, ⟨h.world, ?_⟩, rfl, rfl, [], [], rfl, rfl, .nil⟩
  exact congrArg (List.erase · path) h.trace

theorem parse (limits : Limits) (tokens : List Token) :
    Heedless outer (Host.parse limits tokens) := by
  intro s t h
  simp only [endAlike_iff, ends_parse]
  cases Parse.tokens limits.nesting tokens with
  | ok program left => exact ⟨rfl, .refl h⟩
  | error failure left => exact ⟨rfl, .refl h⟩

/-- Where no files are around, the warnings are the same. -/
theorem tokenize (directory source : String) (path : Option String) :
    Heedless [] (Host.tokenize directory path source) := by
  intro s t h
  have heq : ∀ reached : Assembly.Stage → Prop, ∀ event other,
      Assembly.Told [] reached event other → event = other := by
    rintro reached _ _ (path | ⟨hs, hl⟩)
    · rfl
    · rfl
  exact (tokenize_alike (by simp) h directory source path).mono
    (fun _ _ hafter => hafter.mono (heq _)) fun _ _ _ hafter => hafter.mono (heq _)

/-- What a program does may follow anything. -/
theorem evaluate (limits : Limits) (program : List Node) :
    Heedless outer (Machine.memory <$> Host.evaluate limits program) := by
  intro s t h
  have hst : Machine.start t.world = { Machine.start s.world with
      world := { s.world with log := t.world.log } } := congrArg Machine.start h.world
  have hrun := (Evaluation.run_heedless limits.rounds limits.depth program).alongside hst
  have hbeside (machine other : Machine)
      (ha : Machine.Alongside (.start s.world) (.start t.world) machine other) :
      other.memory = machine.memory ∧ Abreast outer Eq s t { s with world := machine.world }
        { t with world := other.world } := by
    obtain ⟨own, hlog, rfl⟩ := ha
    exact ⟨rfl, ⟨rfl, h.trace⟩, rfl, rfl, own, own, hlog, rfl, List.forall₂_refl own⟩
  rw [endAlike_iff] at hrun ⊢
  simp only [← bind_pure_comp, ends_bind, ends_evaluate, ends_pure]
  refine hrun.mono (fun _ machine hok => hok.mono ?_ fun _ _ hbad => hbad)
    fun failure machine hbad => hbad.mono (fun _ _ hok => hok) ?_
  · exact fun _ other hother => hbeside machine other hother.2
  · exact fun _ other hother => ⟨hother.1, (hbeside machine other hother.2).2⟩

end Heedless

end Host

namespace Session
variable {outer : List String}

theorem load_heedless (session : Session) : Host.Heedless outer session.load := by
  intro s t h
  simp only [endAlike_iff, ends_load]
  cases session.file? with
  | none => exact ⟨trivial, .refl h⟩
  | some path =>
    have hseen : t.world.seen path = s.world.seen path := by rw [h.world, World.seen, World.seen]
    have hfiles : t.world.files = s.world.files := by rw [h.world]
    simp only [hseen, hfiles]
    have hread : Host.Abreast outer Eq s t (s.asked (s.world.seen path))
        (t.asked (s.world.seen path)) := .record h rfl
    cases s.world.files.read (s.world.seen path) with
    | text content => exact ⟨rfl, hread⟩
    | unreadable => exact ⟨trivial, hread⟩
    | nullInPath => exact ⟨trivial, hread⟩

theorem enter_heedless (session : Session) (source : Option String) :
    Host.Heedless outer (session.enter source) := by
  have henter (text : String) : Host.Heedless outer (do Host.enter session.path; return text) :=
    .bind (.enter session.path) fun _ => .pure text
  unfold enter
  cases source with
  | some text => exact henter text
  | none => exact .bind session.load_heedless henter

theorem tokenize_heedless (session : Session) (source : String) :
    Host.Heedless [] (session.tokenize source) := by
  intro s t h
  have hworking : t.world.working = s.world.working := by rw [h.world]
  have halike := Host.Heedless.tokenize (session.directory s.world.working) source
    (session.located? s.world.working) s t h
  rw [endAlike_iff] at halike ⊢
  simp only [tokenize, ends_bind, ends_get, hworking]
  exact halike

theorem finish_heedless (limits : Limits) (session : Session) (tokens : List Token) :
    Host.Heedless [] (Machine.memory <$> session.finish limits tokens) := by
  have hfinish : Machine.memory <$> session.finish limits tokens = do
      let program ← Host.parse limits tokens
      let memory ← Machine.memory <$> Host.evaluate limits program
      Host.leave session.path
      return memory := by
    simp only [finish, map_bind, map_pure, bind_map_left]
  rw [hfinish]
  exact .bind (.parse limits tokens) fun program => .bind (.evaluate limits program) fun memory =>
    .bind (.leave session.path) fun _ => .pure memory

/-- A run does the same whatever its host did before, and whether its errors are fatal or not. -/
theorem run_heedless (limits : Limits) (session : Session) (source : Option String) :
    Host.Heedless [] (Machine.memory <$> session.run limits source) := by
  rw [run_eq]
  simp only [map_bind]
  exact .bind (session.enter_heedless source) fun text =>
    .bind (session.tokenize_heedless text) fun tokens => session.finish_heedless limits tokens

/-- A run whose errors are fatal and one whose errors are not leave the same. -/
theorem run_of_fatal (limits : Limits) (session : Session) (source : Option String) (host : Host)
    (fatal : Bool) :
    EndAlike (fun after other => other = { after with fatal })
      (fun _ after other => other = { after with fatal })
      (Machine.memory <$> session.run limits source)
      (Machine.memory <$> session.run limits source) host { host with fatal } := by
  have hsame (after other : Host)
      (h : Host.Abreast [] Eq host { host with fatal } after other) :
      other = { after with fatal } := by
    obtain ⟨own, hlog, rfl⟩ := h.exists_eq
    rw [← hlog]
  exact (session.run_heedless limits source host { host with fatal } ⟨rfl, rfl⟩).mono hsame
    fun _ => hsame

end Session

end PrefixScript
