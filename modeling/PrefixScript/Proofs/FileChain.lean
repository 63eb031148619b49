import PrefixScript.Proofs.Composition

/-!
# The chain of files

While a source is assembled, the chain of files that are being processed follows the imports: a file
is in it from the directive that asks for it to the end of its text. A file leaves the chain by its
name, so a file that was in the chain before loses its earlier place instead. What becomes of the
chain is therefore known from the files that were entered: those that it held already move to its
end. If it held none of those that are left again, it is as it was, with the files behind it that
are still being processed.
-/
namespace PrefixScript

namespace Host

/-! ## Entering and leaving by name -/

/-- A chain of files after some files were entered and left. Those that it held have moved to its
end. -/
def displaced (trace paths : List String) : List String :=
  trace.diff paths ++ paths.filter (· ∈ trace)

variable {trace paths first second : List String} {path : String}

@[simp] theorem displaced_nil : displaced trace [] = trace := by simp [displaced]

theorem append_diff (h : ∀ path ∈ paths, path ∉ second) :
    (first ++ second).diff paths = first.diff paths ++ second := by
  induction paths generalizing first with
  | nil => simp
  | cons path rest ih =>
    obtain ⟨hpath, hrest⟩ := List.forall_mem_cons.1 h
    have herase : (first ++ second).erase path = first.erase path ++ second := by
      by_cases hm : path ∈ first
      · exact List.erase_append_left second hm
      · rw [List.erase_append_right second hm, List.erase_of_not_mem hpath,
          List.erase_of_not_mem hm]
    rw [List.diff_cons, List.diff_cons, herase, ih hrest]

/-- A chain that holds none of the files is as it was. -/
theorem displaced_of_disjoint (h : ∀ path ∈ paths, path ∉ trace) :
    displaced trace paths = trace := by
  have hdiff : trace.diff paths = trace := by
    have happend : ([] ++ trace).diff paths = List.diff [] paths ++ trace := append_diff h
    rwa [List.nil_append, List.nil_diff, List.nil_append] at happend
  have hnone : paths.filter (· ∈ trace) = [] := by simpa using h
  rw [displaced, hdiff, hnone, List.append_nil]

/-- The last file of a chain stays the last one exactly if the chain held none of the other ones. -/
theorem getLast?_displaced (hl : trace.getLast? = some path) (hn : path ∉ paths) :
    (displaced trace paths).getLast? = some path ↔ ∀ other ∈ paths, other ∉ trace := by
  refine ⟨fun h other hm ht => hn ?_, fun h => by rw [displaced_of_disjoint h, hl]⟩
  have hmoved : other ∈ paths.filter (· ∈ trace) := by simp [hm, ht]
  rw [displaced, List.getLast?_append_of_ne_nil _ (List.ne_nil_of_mem hmoved)] at h
  exact List.mem_of_mem_filter (List.mem_of_getLast? h)

/-- The files that are entered later find those before at the end of the chain, in their order. -/
theorem displaced_append (h : (first ++ second).Nodup) :
    displaced (displaced trace first) second = displaced trace (first ++ second) := by
  have hnew : ∀ path ∈ second, path ∉ first := fun path hs hf =>
    (List.nodup_append.1 h).2.2 path hf path hs rfl
  have hmem : ∀ path ∈ second, (path ∈ displaced trace first ↔ path ∈ trace) := by
    intro path hs
    simp only [displaced, List.mem_append, List.mem_filter, hnew path hs, false_and, or_false]
    exact ⟨fun hm => List.diff_subset _ _ hm, fun hm => List.mem_diff_of_mem hm (hnew path hs)⟩
  have hfilter : second.filter (· ∈ displaced trace first) = second.filter (· ∈ trace) :=
    List.filter_congr fun path hs => by simp [hmem path hs]
  have hdiff : (displaced trace first).diff second =
      (trace.diff first).diff second ++ first.filter (· ∈ trace) :=
    append_diff fun path hs hm => hnew path hs (List.mem_of_mem_filter hm)
  rw [displaced, hfilter, hdiff, displaced, List.diff_append, List.filter_append,
    List.append_assoc]

/-- A file is left where other ones were entered and left in between. -/
theorem displaced_leave (h : path ∉ paths) :
    (displaced (trace ++ [path]) paths).erase path = displaced trace (path :: paths) := by
  have hfilter : paths.filter (· ∈ trace ++ [path]) = paths.filter (· ∈ trace) := by
    refine List.filter_congr fun other hm => ?_
    have hne : other ≠ path := fun he => h (he ▸ hm)
    simp [hne]
  have hdiff : (trace ++ [path]).diff paths = trace.diff paths ++ [path] :=
    append_diff fun other hm hp => h (List.mem_singleton.1 hp ▸ hm)
  rw [displaced, hfilter, hdiff, List.append_assoc, displaced, List.diff_cons]
  by_cases hm : path ∈ trace
  · rw [List.erase_append_left _ (List.mem_diff_of_mem hm h), List.diff_erase]
    simp [hm]
  · have hnot : path ∉ trace.diff paths := fun hp => hm (List.diff_subset _ _ hp)
    rw [List.erase_append_right _ hnot, List.erase_of_not_mem hm]
    simp [hm]

/-- The files of a chain stay in it. -/
theorem displaced_perm (h : paths.Nodup) : (displaced trace paths).Perm trace := by
  induction paths generalizing trace with
  | nil => rw [displaced_nil]
  | cons path rest ih =>
    obtain ⟨hpath, hrest⟩ := List.nodup_cons.1 h
    have herase := ((ih hrest).trans (List.perm_append_singleton path trace)).erase path
    rw [List.erase_cons_head, displaced_leave hpath] at herase
    exact herase

/-- What is left of a chain where some files were entered and left: the same files, with those that
were entered at the end, and so the same chain if it held none of them. -/
structure Restored (trace paths after : List String) : Prop where
  displaced : after = displaced trace paths
  perm : after.Perm trace
  same : (∀ path ∈ paths, path ∉ trace) → after = trace

theorem restored_displaced (h : paths.Nodup) : Restored trace paths (displaced trace paths) where
  displaced := rfl
  perm := displaced_perm h
  same := displaced_of_disjoint

end Host

namespace Assembly

/-! ## The chain after a success -/

theorem Gains.nodup {before after : Assembly} {paths : List String} (h : Gains before after paths) :
    paths.Nodup :=
  List.Nodup.of_map _ h.distinct

/-- Some files were read on the way, and the chain is as if they had been entered and left. -/
def Returns (before after : Assembly) (paths : List String) : Prop :=
  Gains before after paths ∧ after.trace = Host.displaced before.trace paths

theorem Returns.trans {before middle after : Assembly} {paths more : List String}
    (h : Returns before middle paths) (hmore : Returns middle after more) :
    Returns before after (paths ++ more) := by
  have hgains := h.1.trans hmore.1
  refine ⟨hgains, ?_⟩
  rw [hmore.2, h.2, Host.displaced_append hgains.nodup]

/-- What happens to the chain where nothing fails. -/
def chainLaw : Law Failure Assembly where
  kept before after := ∃ paths, Returns before after paths
  failed _ _ _ := True
  refl before := ⟨[], .refl before, Host.displaced_nil.symm⟩
  trans := fun ⟨_, h⟩ ⟨_, hmore⟩ => ⟨_, h.trans hmore⟩
  failed_of_kept _ _ := trivial

theorem expand_obeys_chain {inner : String → List Char → List Token → AssemblyM (List Token)}
    (hi : ∀ directory source earlier, chainLaw.Obeyed (inner directory source earlier))
    (directory name : String) (earlier : List Token) :
    chainLaw.Obeyed (expand inner directory name earlier) := by
  intro before
  have ha := Path.absolute_absolute (Path.join directory name)
  rw [ends_expand inner directory name earlier rfl]
  generalize Path.absolute (Path.join directory name) = path at ha
  split
  · exact ⟨[], .warned before name, Host.displaced_nil.symm⟩
  · rename_i hc
    cases hr : before.files.read path with
    | nullInPath => trivial
    | unreadable => trivial
    | text content =>
      refine (hi _ _ _ _).mono (fun found after h => ?_) fun _ _ h => h
      obtain ⟨paths, hpaths, htrace⟩ := h
      have hgains := (Gains.entered ha hr hc).trans hpaths
      have hnot : path ∉ paths := (List.nodup_cons.1 hgains.nodup).1
      refine ⟨_, hgains.left path, ?_⟩
      rw [trace_left, htrace, trace_entered, Host.displaced_leave hnot]
      rfl

/-- The induction is on the depth of the imports. -/
theorem tokensFrom_obeys_chain (depth : Nat) (directory : String) (source : List Char)
    (earlier : List Token) : chainLaw.Obeyed (tokensFrom depth directory source earlier) := by
  induction depth generalizing directory source earlier with
  | zero => exact fun before => trivial
  | succ depth ih =>
    intro before
    have hexpand := expand_obeys_chain ih directory
    rw [ends_tokensFrom]
    refine (collect_obeyed (fun _ name _ => hexpand name) earlier before).mono ?_ fun _ _ h => h
    intro found after h
    split
    · exact h
    · trivial

/-! ## The stages of an assembly -/

/-- A stage of an assembly: the files that are being processed on its behalf, the outermost first,
the text that is being processed, with its directory, what is left of its pieces, and the state. -/
structure Stage where
  chain : List String
  directory : String
  source : List Char
  left : List Piece
  now : Assembly

/-- From a state, the assembly of a source comes to a stage: in the source itself, behind some of
its pieces, or in the file that the next piece imports. -/
inductive Reaches : (directory : String) → (source : List Char) → Assembly → Stage → Prop
  | here {directory : String} {source : List Char} {before now : Assembly}
      {first left : List Piece} {depth : Nat} {earlier found : List Token}
      (hs : (Scan.ofText source).pieces = first ++ left)
      (h : collect (expand (tokensFrom depth) directory) first earlier before = .ok found now) :
      Reaches directory source before ⟨[], directory, source, left, now⟩
  | inside {directory text name path content : String} {source : List Char}
      {before middle : Assembly} {more : List Piece} {stage : Stage}
      (h : Reaches directory source before
        ⟨[], directory, source, .directive text name :: more, middle⟩)
      (hp : path = Path.absolute (Path.join directory name))
      (hc : ¬ middle.included.contains (Files.key path))
      (hr : middle.files.read path = .text content)
      (hi : Reaches (Path.parent path) (content.toList ++ ['\n']) (middle.entered path) stage) :
      Reaches directory source before { stage with chain := path :: stage.chain }

section Reaches
variable {directory : String} {source : List Char} {before : Assembly} {stage : Stage}

/-- In the source itself, the chain is as if the files read before had been entered and left. -/
theorem Reaches.returns_here {left : List Piece} {now : Assembly}
    (h : Reaches directory source before ⟨[], directory, source, left, now⟩) :
    ∃ paths, Returns before now paths := by
  cases h with
  | @here _ _ _ _ _ _ depth _ _ hs h =>
    have hexpand := expand_obeys_chain (tokensFrom_obeys_chain depth) directory
    exact (collect_obeyed (fun _ name _ => hexpand name) _ before).of_ok h

/-- At a stage the chain has the files that are being processed at its end, if none of the files
that were left again on the way was in it before. -/
theorem Reaches.trace_eq (h : Reaches directory source before stage) :
    ∃ paths, Gains before stage.now paths ∧ stage.chain ⊆ paths ∧
      ((∀ path ∈ paths, path ∉ stage.chain → path ∉ before.trace) →
        stage.now.trace = before.trace ++ stage.chain) := by
  induction h with
  | here hs h =>
    obtain ⟨paths, hgains, htrace⟩ := (Reaches.here hs h).returns_here
    refine ⟨paths, hgains, List.nil_subset _, fun hfree => ?_⟩
    rw [htrace, List.append_nil, Host.displaced_of_disjoint fun path hm => hfree path hm (by simp)]
  | @inside directory text name path content source before middle more stage h hp hc hr hi _ ih =>
    obtain ⟨paths, hgains, htrace⟩ := h.returns_here
    obtain ⟨inner, hinner, hsubset, hchain⟩ := ih
    have ha : Path.absolute path = path := by rw [hp, Path.absolute_absolute]
    have hall := (hgains.trans (Gains.entered ha hr hc)).trans hinner
    have hsubset' : path :: stage.chain ⊆ [path] ++ inner := List.cons_subset_cons path hsubset
    rw [List.append_assoc] at hall
    have hnodup := List.nodup_append.1 hall.nodup
    refine ⟨_, hall, fun other hm => List.mem_append_right _ (hsubset' hm), fun hfree => ?_⟩
    have hmiddle : middle.trace = before.trace := by
      rw [htrace, Host.displaced_of_disjoint]
      intro other hm
      refine hfree other (List.mem_append_left _ hm) fun hopen => ?_
      exact hnodup.2.2 other hm other (hsubset' hopen) rfl
    have hstage : stage.now.trace = middle.trace ++ [path] ++ stage.chain := by
      refine hchain fun other hm hclosed => ?_
      have hne : other ≠ path := fun he => (List.nodup_cons.1 hnodup.2.1).1 (he ▸ hm)
      have hmem : other ∈ paths ++ ([path] ++ inner) :=
        List.mem_append_right _ (List.mem_cons_of_mem path hm)
      rw [trace_entered, hmiddle]
      simpa [hne] using hfree other hmem (by simp [hne, hclosed])
    rw [hstage, hmiddle, List.append_assoc]
    rfl

/-- What has happened since the innermost file was entered, or since the start if there is none. The
chain ended with it then, and from there on it is as if the files read since had been entered and
left. -/
theorem Reaches.since_entered (h : Reaches directory source before stage) :
    ∃ start front finished, Gains before start front ∧ Returns start stage.now finished ∧
      stage.chain ⊆ front ∧ front.getLast? = stage.chain.getLast? ∧
      start.trace.getLast? = (before.trace ++ stage.chain).getLast? ∧
      ∀ path, path ∈ start.trace ↔ path ∈ before.trace ∨ path ∈ stage.chain := by
  induction h with
  | here hs h =>
    obtain ⟨finished, hreturns⟩ := (Reaches.here hs h).returns_here
    exact ⟨_, [], finished, .refl _, hreturns, by simp⟩
  | @inside directory text name path content source before middle more stage h hp hc hr hi _ ih =>
    obtain ⟨paths, hgains, htrace⟩ := h.returns_here
    obtain ⟨start, front, finished, hfront, hreturns, hsubset, hlast, hstart, hmem⟩ := ih
    have ha : Path.absolute path = path := by rw [hp, Path.absolute_absolute]
    have hall := (hgains.trans (Gains.entered ha hr hc)).trans hfront
    have hkept : ∀ other, other ∈ middle.trace ↔ other ∈ before.trace := fun other =>
      htrace ▸ (Host.displaced_perm hgains.nodup).mem_iff
    refine ⟨start, _, finished, hall, hreturns, ?_, ?_, ?_, fun other => ?_⟩
    · rw [List.append_assoc]
      exact fun other hm => List.mem_append_right _ (List.cons_subset_cons path hsubset hm)
    · simp [List.getLast?_append, List.getLast?_cons, hlast]
    · rw [hstart, trace_entered]
      simp [List.getLast?_append, List.getLast?_cons]
    · rw [hmem, trace_entered, List.mem_append, hkept]
      simp [or_assoc]

/-- At a stage, some files have been left again since the innermost one was entered. The last file
of the chain is what it was exactly if the chain held none of these before. -/
theorem Reaches.getLast?_trace (h : Reaches directory source before stage) :
    ∃ front finished, Gains before stage.now (front ++ finished) ∧ stage.chain ⊆ front ∧
      front.getLast? = stage.chain.getLast? ∧
      ∀ last, (before.trace ++ stage.chain).getLast? = some last → last ∉ finished →
        (stage.now.trace.getLast? = some last ↔ ∀ path ∈ finished, path ∉ before.trace) := by
  obtain ⟨start, front, finished, hfront, hreturns, hsubset, hlast, hstart, hmem⟩ := h.since_entered
  have hall := hfront.trans hreturns.1
  refine ⟨front, finished, hall, hsubset, hlast, fun last hl hn => ?_⟩
  have hclosed : ∀ path ∈ finished, path ∉ stage.chain := fun path hm hopen =>
    (List.nodup_append.1 hall.nodup).2.2 path (hsubset hopen) path hm rfl
  rw [hreturns.2, Host.getLast?_displaced (hstart.trans hl) hn]
  refine forall₂_congr fun path hm => ?_
  rw [hmem, or_iff_left (hclosed path hm)]

/-- The text of the innermost file of a chain, or that of the source if the chain is empty. -/
def Innermost (files : Files) (source : List Char) (chain : List String) (text : List Char) :
    Prop :=
  match chain.getLast? with
  | none => text = source
  | some path => ∃ content, files.read path = .text content ∧ text = content.toList

/-- What is processed at a stage is a text, which a line feed may follow, and what is left are
pieces of it. -/
structure Stage.Processes (stage : Stage) (text : List Char) : Prop where
  source : stage.source = text ∨ stage.source = text ++ ['\n']
  left : stage.left <:+ (Scan.ofText stage.source).pieces

/-- What is being processed is the text of the innermost file, or the source itself. -/
theorem Reaches.innermost (h : Reaches directory source before stage) :
    ∃ text, Innermost before.files source stage.chain text ∧ stage.Processes text := by
  induction h with
  | here hs h => exact ⟨_, rfl, .inl rfl, _, hs.symm⟩
  | @inside directory text name path content source before middle more stage h hp hc hr hi _ ih =>
    obtain ⟨paths, hgains, -⟩ := h.returns_here
    obtain ⟨inner, htext, hsource, hleft⟩ := ih
    rw [files_entered, hgains.files] at htext
    rw [hgains.files] at hr
    cases hlast : stage.chain.getLast? with
    | none =>
      have hnil : stage.chain = [] := List.getLast?_eq_none_iff.1 hlast
      have hown : stage.source = content.toList ++ ['\n'] := by
        cases hi with
        | here => rfl
        | inside => cases hnil
      exact ⟨content.toList, by simpa [Innermost, hnil] using ⟨content, hr, rfl⟩, .inr hown, hleft⟩
    | some last =>
      rw [Innermost, hlast] at htext
      refine ⟨inner, ?_, hsource, hleft⟩
      rw [Innermost, List.getLast?_cons, hlast]
      exact htext

end Reaches

/-! ## Where an assembly fails -/

/-- How an assembly fails at a stage: nothing is left of the pieces but a rest that cannot be
scanned, or the next directive asks for a file that cannot be opened. -/
inductive Stage.Fails (stage : Stage) : Failure → Assembly → Prop
  | lexical (hl : stage.left = []) (hr : (Scan.ofText stage.source).rest ≠ []) :
      stage.Fails (.fault (unexpected stage.source (Scan.ofText stage.source).rest)) stage.now
  | unreadable {text name path : String} {more : List Piece}
      (hl : stage.left = .directive text name :: more)
      (hp : path = Path.absolute (Path.join stage.directory name))
      (hr : stage.now.files.read path = .unreadable) :
      stage.Fails (.fault (.unreadableImport name path)) (stage.now.asked path)
  | nullInPath {text name path : String} {more : List Piece}
      (hl : stage.left = .directive text name :: more)
      (hp : path = Path.absolute (Path.join stage.directory name))
      (hr : stage.now.files.read path = .nullInPath) :
      stage.Fails (.defect .nullInPath) (stage.now.asked path)

theorem Stage.Fails.trace_eq {stage : Stage} {failure : Failure} {after : Assembly}
    (h : stage.Fails failure after) : after.trace = stage.now.trace := by
  cases h <;> rfl

/-- Pieces fail at a directive, behind pieces that do not. -/
theorem collect_fails {expand : String → List Token → AssemblyM (List Token)}
    {pieces : List Piece} {earlier : List Token} {before after : Assembly} {failure : Failure}
    (h : collect expand pieces earlier before = .error failure after) :
    ∃ first text name more found middle, pieces = first ++ .directive text name :: more ∧
      collect expand first earlier before = .ok found middle ∧
      expand name found middle = .error failure after := by
  induction pieces generalizing earlier before with
  | nil => cases h
  | cons piece rest ih =>
    cases piece with
    | token token =>
      obtain ⟨first, text, name, more, found, middle, rfl, hfirst, hlast⟩ := ih h
      exact ⟨.token token :: first, text, name, more, found, middle, rfl, hfirst, hlast⟩
    | comment content =>
      obtain ⟨first, text, name, more, found, middle, rfl, hfirst, hlast⟩ := ih h
      exact ⟨.comment content :: first, text, name, more, found, middle, rfl, hfirst, hlast⟩
    | blank content =>
      obtain ⟨first, text, name, more, found, middle, rfl, hfirst, hlast⟩ := ih h
      exact ⟨.blank content :: first, text, name, more, found, middle, rfl, hfirst, hlast⟩
    | directive content own =>
      rw [collect] at h
      cases ho : expand own earlier before with
      | ok tokens between =>
        rw [bind_of_ok ho] at h
        obtain ⟨first, text, name, more, found, middle, rfl, hfirst, hlast⟩ := ih h
        refine ⟨.directive content own :: first, text, name, more, found, middle, rfl, ?_, hlast⟩
        rw [collect, bind_of_ok ho, hfirst]
      | error other between =>
        rw [bind_of_error ho] at h
        cases h
        exact ⟨[], content, own, rest, earlier, before, rfl, rfl, ho⟩

/-- An assembly that fails has come to a stage at which it fails. The induction is on the depth of
the imports; a file whose text fails is entered at the stage of its directive. -/
theorem tokensFrom_fails (depth : Nat) (directory : String) (source : List Char)
    (earlier : List Token) (before : Assembly) :
    Ends (tokensFrom depth directory source earlier) before (fun _ _ => True)
      (fun failure after => failure = .unfinished ∨
        ∃ stage, Reaches directory source before stage ∧ stage.Fails failure after) := by
  induction depth generalizing directory source earlier before with
  | zero => exact .inl rfl
  | succ depth ih =>
    rw [ends_tokensFrom]
    cases hall : collect (expand (tokensFrom depth) directory) (Scan.ofText source).pieces earlier
        before with
    | ok found after =>
      simp only [Ends, hall]
      split
      · trivial
      · rename_i hrest
        have hs : (Scan.ofText source).pieces = (Scan.ofText source).pieces ++ [] := by simp
        exact .inr ⟨_, .here hs hall, .lexical rfl hrest⟩
    | error failure after =>
      simp only [Ends, hall]
      obtain ⟨first, text, name, more, found, middle, hs, hfirst, hlast⟩ := collect_fails hall
      have hstage := Reaches.here hs hfirst
      have hends : Ends (expand (tokensFrom depth) directory name found) middle (fun _ _ => True)
          (fun failure after => failure = .unfinished ∨
            ∃ stage, Reaches directory source before stage ∧ stage.Fails failure after) := by
        rw [ends_expand (tokensFrom depth) directory name found rfl]
        split
        · trivial
        · rename_i hc
          cases hr : middle.files.read (Path.absolute (Path.join directory name)) with
          | nullInPath => exact .inr ⟨_, hstage, .nullInPath rfl rfl hr⟩
          | unreadable => exact .inr ⟨_, hstage, .unreadable rfl rfl hr⟩
          | text content =>
            refine (ih _ _ _ _).mono (fun _ _ _ => trivial) fun failure after h => h.imp_right ?_
            rintro ⟨stage, hreach, hfails⟩
            refine ⟨_, .inside hstage rfl hc hr hreach, ?_⟩
            cases hfails with
            | lexical hl hr => exact .lexical hl hr
            | unreadable hl hp hr => exact .unreadable hl hp hr
            | nullInPath hl hp hr => exact .nullInPath hl hp hr
      exact hends.of_error hlast

/-! ## Warnings -/

/-- What was written from one state to another are warnings of skipped files, each of them at one of
some stages, with the chain of that stage. -/
def Warns (reached : Stage → Prop) (before after : Assembly) : Prop :=
  ∃ events, after.host.world.log = events ++ before.host.world.log ∧
    ∀ written, .wrote written ∈ events →
      ∃ stage text name more, reached stage ∧ stage.left = .directive text name :: more ∧
        written = Host.warning stage.now.trace (skipped name)

namespace Warns
variable {reached others : Stage → Prop} {before middle after : Assembly}

theorem refl (before : Assembly) : Warns reached before before := ⟨[], rfl, by simp⟩

theorem trans (h : Warns reached before middle) (h' : Warns reached middle after) :
    Warns reached before after := by
  obtain ⟨events, hlog, hevents⟩ := h
  obtain ⟨more, hlog', hmore⟩ := h'
  refine ⟨more ++ events, by rw [hlog', hlog, List.append_assoc], fun written hm => ?_⟩
  exact (List.mem_append.1 hm).elim (hmore written) (hevents written)

/-- To ask for a file is no warning. -/
theorem asked (before : Assembly) (path : String) : Warns reached before (before.asked path) :=
  ⟨[.opened path], rfl, by simp⟩

theorem entered (before : Assembly) (path : String) : Warns reached before (before.entered path) :=
  ⟨[.opened path], rfl, by simp⟩

theorem left (h : Warns reached before after) (path : String) :
    Warns reached before (after.left path) := h

theorem warned {stage : Stage} {text name : String} {more : List Piece} (hs : reached stage)
    (hl : stage.left = .directive text name :: more) :
    Warns reached stage.now (stage.now.warned name) := by
  refine ⟨[.wrote (Host.warning stage.now.trace (skipped name))], rfl, fun written hm => ?_⟩
  obtain rfl : written = _ := by simpa using hm
  exact ⟨stage, text, name, more, hs, hl, rfl⟩

/-- Stages inside of a file are stages of the source that imports it. -/
theorem inside {path : String} (h : Warns others before after)
    (hi : ∀ stage, others stage → reached { stage with chain := path :: stage.chain }) :
    Warns reached before after := by
  obtain ⟨events, hlog, hevents⟩ := h
  refine ⟨events, hlog, fun written hm => ?_⟩
  obtain ⟨stage, text, name, more, hs, hl, hw⟩ := hevents written hm
  exact ⟨_, text, name, more, hi stage hs, hl, hw⟩

end Warns

/-- A source warns at its own stages, whether it fails or not. -/
def WarnsAtStages (find : String → List Char → List Token → AssemblyM (List Token)) : Prop :=
  ∀ directory source earlier before,
    Ends (find directory source earlier) before
      (fun _ after => Warns (Reaches directory source before) before after)
      fun _ after => Warns (Reaches directory source before) before after

theorem expand_warns {inner : String → List Char → List Token → AssemblyM (List Token)}
    (hi : WarnsAtStages inner) {directory text name : String} {source : List Char}
    {before middle : Assembly} {more : List Piece}
    (hs : Reaches directory source before
      ⟨[], directory, source, .directive text name :: more, middle⟩) (earlier : List Token) :
    Ends (expand inner directory name earlier) middle
      (fun _ after => Warns (Reaches directory source before) middle after)
      fun _ after => Warns (Reaches directory source before) middle after := by
  rw [ends_expand inner directory name earlier rfl]
  split
  · exact .warned hs rfl
  · rename_i hc
    cases hr : middle.files.read (Path.absolute (Path.join directory name)) with
    | nullInPath => exact .asked _ _
    | unreadable => exact .asked _ _
    | text content =>
      refine (hi _ _ _ _).mono (fun _ after h => ?_) fun _ after h => ?_
      · have hinner := h.inside fun _ hstage => Reaches.inside hs rfl hc hr hstage
        exact ((Warns.entered _ _).trans hinner).left _
      · have hinner := h.inside fun _ hstage => Reaches.inside hs rfl hc hr hstage
        exact (Warns.entered _ _).trans hinner

/-- The induction goes from the first pieces of a source to those with one more at the end. -/
theorem collect_warns {depth : Nat} (hi : WarnsAtStages (tokensFrom depth)) {directory : String}
    {source : List Char} (before : Assembly) (earlier : List Token) (first : List Piece) :
    ∀ left, (Scan.ofText source).pieces = first ++ left →
      Ends (collect (expand (tokensFrom depth) directory) first earlier) before
        (fun _ after => Warns (Reaches directory source before) before after)
        fun _ after => Warns (Reaches directory source before) before after := by
  induction first using List.reverseRecOn with
  | nil => exact fun left hs => .refl before
  | append_singleton first piece ih =>
    intro left hs
    rw [List.append_assoc, List.singleton_append] at hs
    have hfirst := ih (piece :: left) hs
    rw [collect_append]
    cases hc : collect (expand (tokensFrom depth) directory) first earlier before with
    | error failure after =>
      rw [Ends, bind_of_error hc]
      exact hfirst.of_error hc
    | ok found middle =>
      have hwarns := hfirst.of_ok hc
      rw [ends_bind_of_ok hc]
      cases piece with
      | token token => exact hwarns
      | comment content => exact hwarns
      | blank content => exact hwarns
      | directive text name =>
        rw [collect, ends_bind]
        refine (expand_warns hi (.here hs hc) found).mono (fun _ after h => ?_) fun _ after h => ?_
        · exact hwarns.trans h
        · exact hwarns.trans h

/-- The induction is on the depth of the imports. -/
theorem tokensFrom_warns (depth : Nat) : WarnsAtStages (tokensFrom depth) := by
  induction depth with
  | zero => exact fun directory source earlier before => .refl before
  | succ depth ih =>
    intro directory source earlier before
    rw [ends_tokensFrom]
    refine (collect_warns ih before earlier _ [] (by simp)).mono (fun _ after h => ?_)
      fun _ _ h => h
    split
    · exact h
    · exact h

/-! ## Lines -/

/-- A line of a text, without the line feed at its end. -/
def IsLine (line text : List Char) : Prop :=
  '\n' ∉ line ∧ ∃ front back, text = front ++ line ++ back ∧
    (∀ c ∈ front.getLast?, c = '\n') ∧ ∀ c ∈ back.head?, c = '\n'

theorem exists_lastLine (text : List Char) :
    ∃ front, text = front ++ (text.reverse.takeWhile (· != '\n')).reverse ∧
      ∀ c ∈ front.getLast?, c = '\n' := by
  refine ⟨(text.reverse.dropWhile (· != '\n')).reverse, ?_, fun c hc => ?_⟩
  · rw [← List.reverse_append, List.takeWhile_append_dropWhile, List.reverse_reverse]
  · rw [List.getLast?_reverse] at hc
    have hstop := List.head?_dropWhile_not (· != '\n') text.reverse
    rw [Option.mem_def.1 hc] at hstop
    simpa using hstop

theorem exists_firstLine (text : List Char) :
    ∃ back, text = text.takeWhile (· != '\n') ++ back ∧ ∀ c ∈ back.head?, c = '\n' := by
  refine ⟨text.dropWhile (· != '\n'), List.takeWhile_append_dropWhile.symm, fun c hc => ?_⟩
  have hstop := List.head?_dropWhile_not (· != '\n') text
  rw [Option.mem_def.1 hc] at hstop
  simpa using hstop

/-- The line at fault is a line of the source with the character in it. -/
theorem unexpected_line {source more : List Char} {c : Char} (h : c :: more <:+ source)
    (hc : c ≠ '\n') :
    ∃ line column number, unexpected source (c :: more) =
        .unexpectedCharacter line column c number ∧
      c ∈ line.toList ∧ IsLine line.toList source := by
  obtain ⟨passed, rfl⟩ := h
  obtain ⟨front, hfront, hstart⟩ := exists_lastLine passed
  obtain ⟨back, hback, hstop⟩ := exists_firstLine (c :: more)
  have hmem : c ∈ (c :: more).takeWhile (· != '\n') := by simp [hc]
  rw [unexpected_append]
  refine ⟨_, _, _, rfl, ?_, ?_⟩
  · rw [String.toList_ofList]
    exact List.mem_append_right _ hmem
  · rw [String.toList_ofList]
    refine ⟨fun hm => ?_, front, back, ?_, hstart, hstop⟩
    · rcases List.mem_append.1 hm with hm | hm
      · exact absurd (List.mem_takeWhile_imp (List.mem_reverse.1 hm)) (by decide)
      · exact absurd (List.mem_takeWhile_imp hm) (by decide)
    · rw [List.append_assoc, List.append_assoc, ← hback, ← List.append_assoc, ← hfront]

/-- A line that is not empty is none of those that a line feed at the end adds. -/
theorem IsLine.of_feed {line text : List Char} (h : IsLine line (text ++ ['\n']))
    (hne : line ≠ []) : IsLine line text := by
  obtain ⟨hline, front, back, htext, hstart, hstop⟩ := h
  rcases List.eq_nil_or_concat back with rfl | ⟨init, last, rfl⟩
  · obtain ⟨rest, last, rfl⟩ := (List.eq_nil_or_concat line).resolve_left hne
    rw [List.append_nil, List.concat_eq_append, ← List.append_assoc] at htext
    have hlast : '\n' = last := by simpa using (List.append_inj' htext rfl).2
    rw [List.concat_eq_append, hlast] at hline
    exact absurd (List.mem_append_right rest (List.mem_singleton_self last)) hline
  · rw [List.concat_eq_append, ← List.append_assoc] at htext
    refine ⟨hline, front, init, (List.append_inj' htext rfl).1, hstart, fun c hc => hstop c ?_⟩
    rw [List.concat_eq_append, List.head?_append, Option.mem_def.1 hc]
    rfl

end Assembly

/-- What is left of a text starts with no blank. -/
theorem Scan.not_blank_of_rest {text more : List Char} {c : Char}
    (h : (ofText text).rest = c :: more) : Text.isBlank c = false := by
  induction text using Scan.induction with
  | stuck text hnone =>
    rw [ofText_of_none hnone] at h
    obtain rfl : text = c :: more := h
    by_contra hb
    rw [Rule.first?_of_blank (by simpa using hb)] at hnone
    cases hnone
  | piece text label length hsome ih =>
    rw [ofText_of_some hsome] at h
    exact ih h

namespace Assembly

/-- A failure has its cause in the text that is processed at a stage: the line at fault is a line of
it, or the file that cannot be opened is the one that its next directive names. -/
inductive Stage.Blames (stage : Stage) (text : List Char) : Failure → Prop
  | lexical {line : String} {column : Nat} {char : Char} {number : Nat} (hl : stage.left = [])
      (h : IsLine line.toList text) :
      stage.Blames text (.fault (.unexpectedCharacter line column char number))
  | unreadable {written name path : String} {more : List Piece}
      (hl : stage.left = .directive written name :: more)
      (hp : path = Path.absolute (Path.join stage.directory name)) :
      stage.Blames text (.fault (.unreadableImport name path))
  | nullInPath {written name : String} {more : List Piece}
      (hl : stage.left = .directive written name :: more) :
      stage.Blames text (.defect .nullInPath)

/-- Where a stage fails, the text of the innermost file is to blame. The line feed behind it starts
no line with something in it. -/
theorem Stage.Fails.blames {stage : Stage} {failure : Failure} {after : Assembly}
    {text : List Char} (h : stage.Fails failure after) (hs : stage.Processes text) :
    stage.Blames text failure := by
  cases h with
  | lexical hl hr =>
    obtain ⟨c, more, hrest⟩ := List.exists_cons_of_ne_nil hr
    have hc : c ≠ '\n' := by
      rintro rfl
      cases Scan.not_blank_of_rest hrest
    have hsuffix := Scan.rest_suffix stage.source
    rw [hrest] at hsuffix ⊢
    obtain ⟨line, column, number, he, hmem, hline⟩ := unexpected_line hsuffix hc
    rw [he]
    refine .lexical hl ?_
    rcases hs.source with hs | hs
    · exact hs ▸ hline
    · rw [hs] at hline
      exact hline.of_feed (List.ne_nil_of_mem hmem)
  | unreadable hl hp => exact .unreadable hl hp
  | nullInPath hl => exact .nullInPath hl

end Assembly

end PrefixScript
