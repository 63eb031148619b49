import Mathlib.Data.List.Nodup
import Mathlib.Data.List.Perm.Subperm
import PrefixScript.Proofs.Expansion
import PrefixScript.Proofs.PathSpellings

/-!
# Each file is included once

Files may import each other in any way, also in circles. A file is read only if its key is not
included yet, and with that its key is included, so the keys of all files that are read differ. As a
file has two absolute paths, the number of reads is bounded by the number of files, and with it the
depth to which imports are nested.
-/
namespace PrefixScript

namespace Table
variable {α : Type} {name : String} {value : α}

theorem mem_of_seek {entries : List (String × α)} (h : seek name entries = some value) :
    (name, value) ∈ entries := by
  induction entries with
  | nil => cases h
  | cons head rest ih =>
    obtain ⟨key, other⟩ := head
    rw [seek] at h
    split at h
    · rename_i he
      cases h
      rw [he]
      exact List.mem_cons_self
    · exact List.mem_cons_of_mem _ (ih h)

theorem contains_insert (table : Table α) (name key : String) (value : α) :
    (table.insert name value).contains key ↔ key = name ∨ table.contains key := by
  rw [contains, find?_insert]
  by_cases h : key = name
  · simp [h]
  · simp [h, contains]

end Table

namespace Files

/-- The files whose content is text. -/
def readable (files : Files) : List (String × ByteArray) :=
  files.entries.filter fun entry => (String.fromUTF8? entry.2).isSome

/-- The absolute paths of the files whose content is text. -/
def spellings (files : Files) : List String :=
  files.readable.flatMap fun entry => [entry.1, "/" ++ entry.1]

theorem length_spellings (files : Files) :
    files.spellings.length = 2 * files.readable.length := by
  simp [spellings, List.length_flatMap, Nat.mul_comm]

/-- What is read is the text of a file. -/
theorem exists_of_read {files : Files} {path content : String}
    (hr : files.read path = .text content) :
    ∃ bytes text, files.find? (place path) = some bytes ∧ String.fromUTF8? bytes = some text ∧
      content = String.ofList (unifyBreaks text.toList []) := by
  unfold read at hr
  split at hr
  · cases hr
  · split at hr
    · cases hr
    · split at hr
      · rename_i text hbind
        obtain ⟨bytes, hfind, hbytes⟩ := Option.bind_eq_some_iff.1 hbind
        cases hr
        exact ⟨bytes, text, hfind, hbytes, rfl⟩
      · cases hr

/-- An absolute path under which a text can be read is one of them. -/
theorem mem_spellings {files : Files} {path content : String}
    (ha : Path.absolute path = path) (hr : files.read path = .text content) :
    path ∈ files.spellings := by
  obtain ⟨bytes, text, hfind, hbytes, -⟩ := exists_of_read hr
  have htext : (String.fromUTF8? bytes).isSome := by rw [hbytes, Option.isSome_some]
  have hentry : (place path, bytes) ∈ files.readable :=
    List.mem_filter.2 ⟨Table.mem_of_seek hfind, htext⟩
  refine List.mem_flatMap.2 ⟨(place path, bytes), hentry, ?_⟩
  have hpath := absolute_cases path
  rw [ha] at hpath
  simpa using hpath

end Files

namespace Assembly

/-! ## What has been read -/

/-- On the way from one state to another just the given paths were opened, and all were read. They
are new, and their keys are all that is included in addition. -/
structure Gains (before after : Assembly) (paths : List String) : Prop where
  files : after.files = before.files
  opened : after.opened = before.opened ++ paths
  included : ∀ key, after.included.contains key ↔
    before.included.contains key ∨ key ∈ paths.map Files.key
  fresh : ∀ path ∈ paths, ¬ before.included.contains (Files.key path)
  distinct : (paths.map Files.key).Nodup
  found : ∀ path ∈ paths, Path.absolute path = path ∧
    ∃ content, before.files.read path = .text content

namespace Gains
variable {before middle after : Assembly} {path : String} {paths more : List String}

theorem of_eq (hf : after.files = before.files) (ho : after.opened = before.opened)
    (hi : after.included = before.included) : Gains before after [] where
  files := hf
  opened := by rw [ho, List.append_nil]
  included := by simp [hi]
  fresh := by simp
  distinct := by simp
  found := by simp

theorem refl (before : Assembly) : Gains before before [] := of_eq rfl rfl rfl

theorem trans (h : Gains before middle paths) (hmore : Gains middle after more) :
    Gains before after (paths ++ more) where
  files := hmore.files.trans h.files
  opened := by rw [hmore.opened, h.opened, List.append_assoc]
  included key := by
    rw [hmore.included, h.included, List.map_append, List.mem_append, or_assoc]
  fresh path hm hc := by
    rcases List.mem_append.1 hm with hm | hm
    · exact h.fresh path hm hc
    · exact hmore.fresh path hm ((h.included _).2 (.inl hc))
  distinct := by
    rw [List.map_append]
    refine List.Nodup.append h.distinct hmore.distinct fun key hk hl => ?_
    obtain ⟨path, hm, rfl⟩ := List.mem_map.1 hl
    exact hmore.fresh path hm ((h.included _).2 (.inr hk))
  found path hm := by
    rcases List.mem_append.1 hm with hm | hm
    · exact h.found path hm
    · exact h.files ▸ hmore.found path hm

/-- A file that is entered was read. -/
theorem entered (ha : Path.absolute path = path) {content : String}
    (hr : before.files.read path = .text content)
    (hc : ¬ before.included.contains (Files.key path)) :
    Gains before (before.entered path) [path] where
  files := files_entered before path
  opened := opened_entered before path
  included key := by
    rw [included_entered, Table.contains_insert, or_comm]
    simp
  fresh := by simpa using hc
  distinct := by simp
  found := by simpa using ⟨ha, content, hr⟩

theorem left (h : Gains before after paths) (path : String) :
    Gains before (after.left path) paths := by
  simpa using h.trans (of_eq (files_left after path) (opened_left after path)
    (included_left after path))

theorem warned (before : Assembly) (name : String) : Gains before (before.warned name) [] :=
  of_eq (files_warned before name) (opened_warned before name) (included_warned before name)

/-- Each readable file has been read twice at most. -/
theorem length_le (h : Gains before after paths) :
    paths.length ≤ 2 * before.files.readable.length := by
  have hsubset : paths ⊆ before.files.spellings := by
    intro path hm
    obtain ⟨ha, content, hr⟩ := h.found path hm
    exact Files.mem_spellings ha hr
  rw [← Files.length_spellings]
  exact ((List.Nodup.of_map _ h.distinct).subperm hsubset).length_le

end Gains

/-! ## How an assembly fails -/

/-- How an assembly fails whose imports may be nested to some depth: at a character, at a file that
cannot be read and does not become included, or because so many files were read that the depth does
not suffice. -/
inductive Stops (depth : Nat) : Failure → Assembly → Assembly → Prop
  | lexical {before after : Assembly} {paths : List String} {line : String} {column : Nat}
      {char : Char} {number : Nat} (h : Gains before after paths) :
      Stops depth (.fault (.unexpectedCharacter line column char number)) before after
  | unreadable {before middle : Assembly} {paths : List String} {name path : String}
      (h : Gains before middle paths) (hc : ¬ middle.included.contains (Files.key path)) :
      Stops depth (.fault (.unreadableImport name path)) before (middle.asked path)
  | nullInPath {before middle : Assembly} {paths : List String} {path : String}
      (h : Gains before middle paths) (hc : ¬ middle.included.contains (Files.key path)) :
      Stops depth (.defect .nullInPath) before (middle.asked path)
  | unfinished {before after : Assembly} {paths : List String} (h : Gains before after paths)
      (hd : depth ≤ paths.length) : Stops depth .unfinished before after

/-- A failure counts with what was read before it. -/
theorem Stops.after {depth : Nat} {failure : Failure} {before middle after : Assembly}
    {paths : List String} (h : Gains before middle paths) (hs : Stops depth failure middle after) :
    Stops (depth + paths.length) failure before after := by
  cases hs with
  | lexical hl => exact .lexical (h.trans hl)
  | unreadable hl hc => exact .unreadable (h.trans hl) hc
  | nullInPath hl hc => exact .nullInPath (h.trans hl) hc
  | unfinished hl hd =>
    refine .unfinished (h.trans hl) ?_
    rw [List.length_append]
    omega

theorem Stops.mono {depth less : Nat} {failure : Failure} {before after : Assembly}
    (hs : Stops depth failure before after) (hl : less ≤ depth) :
    Stops less failure before after := by
  cases hs with
  | lexical h => exact .lexical h
  | unreadable h hc => exact .unreadable h hc
  | nullInPath h hc => exact .nullInPath h hc
  | unfinished h hd => exact .unfinished h (hl.trans hd)

/-- What an assembly may do whose imports may be nested to some depth. -/
def inclusionLaw (depth : Nat) : Law Failure Assembly where
  kept before after := ∃ paths, Gains before after paths
  failed := Stops depth
  refl before := ⟨[], .refl before⟩
  trans := fun ⟨_, h⟩ ⟨_, hmore⟩ => ⟨_, h.trans hmore⟩
  failed_of_kept := fun ⟨_, h⟩ hs => (hs.after h).mono (Nat.le_add_right _ _)

/-- Entering a file takes one more level, and reads one more file. -/
theorem expand_obeys_inclusion {depth : Nat}
    {inner : String → List Char → List Token → AssemblyM (List Token)}
    (hi : ∀ directory source earlier, (inclusionLaw depth).Obeyed (inner directory source earlier))
    (directory name : String) (earlier : List Token) :
    (inclusionLaw (depth + 1)).Obeyed (expand inner directory name earlier) := by
  intro before
  have ha := Path.absolute_absolute (Path.join directory name)
  rw [ends_expand inner directory name earlier rfl]
  generalize Path.absolute (Path.join directory name) = path at ha
  split
  · exact ⟨[], .warned before name⟩
  · rename_i hc
    cases hr : before.files.read path with
    | nullInPath => exact .nullInPath (.refl before) hc
    | unreadable => exact .unreadable (.refl before) hc
    | text content =>
      have hentered := Gains.entered ha hr hc
      refine (hi _ _ _ _).mono (fun found after hkept => ?_) fun failure after hs => ?_
      · obtain ⟨paths, hpaths⟩ := hkept
        exact ⟨_, (hentered.trans hpaths).left path⟩
      · exact hs.after hentered

/-- The induction is on the depth; at depth zero no file needs to have been read. -/
theorem tokensFrom_obeys_inclusion (depth : Nat) (directory : String) (source : List Char)
    (earlier : List Token) :
    (inclusionLaw depth).Obeyed (tokensFrom depth directory source earlier) := by
  induction depth generalizing directory source earlier with
  | zero => exact fun before => .unfinished (.refl before) (Nat.zero_le _)
  | succ depth ih =>
    intro before
    rw [ends_tokensFrom]
    have hexpand := expand_obeys_inclusion ih directory
    refine (collect_obeyed (fun _ name _ => hexpand name) earlier before).mono ?_ ?_
    · rintro found after ⟨paths, hpaths⟩
      split
      · exact ⟨paths, hpaths⟩
      · exact .lexical hpaths
    · exact fun _ _ hs => hs

/-! ## Depth -/

/-- One activity does what another one does wherever that one finishes. -/
def Finishes {α : Type} (first second : AssemblyM α) : Prop :=
  ∀ before, second before = first before ∨ ∃ after, first before = .error .unfinished after

namespace Finishes
variable {α β : Type}

theorem refl (activity : AssemblyM α) : Finishes activity activity := fun _ => .inl rfl

theorem bind {first second : AssemblyM α} {next other : α → AssemblyM β}
    (h : Finishes first second) (hn : ∀ a, Finishes (next a) (other a)) :
    Finishes (first >>= next) (second >>= other) := by
  intro before
  rcases h before with he | ⟨after, hu⟩
  · cases hf : first before with
    | ok a middle =>
      rw [bind_of_ok hf, bind_of_ok (he.trans hf)]
      exact hn a middle
    | error failure middle =>
      rw [bind_of_error hf, bind_of_error (he.trans hf)]
      exact .inl rfl
  · exact .inr ⟨after, bind_of_error hu⟩

end Finishes

theorem collect_finishes {expand other : String → List Token → AssemblyM (List Token)}
    (h : ∀ name earlier, Finishes (expand name earlier) (other name earlier))
    (pieces : List Piece) (earlier : List Token) :
    Finishes (collect expand pieces earlier) (collect other pieces earlier) := by
  induction pieces generalizing earlier with
  | nil => exact .refl _
  | cons piece rest ih =>
    cases piece with
    | token token => exact ih (token :: earlier)
    | directive text name => exact (h name earlier).bind ih
    | comment text => exact ih earlier
    | blank text => exact ih earlier

/-- An assembly that is finished at some depth is not changed by more depth. -/
theorem tokensFrom_finishes (depth : Nat) (directory : String) (source : List Char)
    (earlier : List Token) :
    Finishes (tokensFrom depth directory source earlier)
      (tokensFrom (depth + 1) directory source earlier) := by
  induction depth generalizing directory source earlier with
  | zero => exact fun before => .inr ⟨before, rfl⟩
  | succ depth ih =>
    have hexpand (name : String) (earlier : List Token) :
        Finishes (expand (tokensFrom depth) directory name earlier)
          (expand (tokensFrom (depth + 1)) directory name earlier) := by
      unfold expand
      refine (Finishes.refl _).bind fun before => ?_
      split
      · exact .refl _
      · refine (Finishes.refl _).bind fun text => (Finishes.refl _).bind fun _ => ?_
        exact (ih _ text earlier).bind fun found => .refl _
    exact (collect_finishes hexpand _ earlier).bind fun found => .refl _

/-- All depths above one that suffices are alike. -/
theorem tokensFrom_eq_of_le {depth more : Nat} {directory : String} {source : List Char}
    {earlier : List Token} {before : Assembly}
    (h : ∀ after, tokensFrom depth directory source earlier before ≠ .error .unfinished after)
    (hle : depth ≤ more) :
    tokensFrom more directory source earlier before =
      tokensFrom depth directory source earlier before := by
  induction more, hle using Nat.le_induction with
  | base => rfl
  | succ more _ ih =>
    rcases tokensFrom_finishes more directory source earlier before with he | ⟨after, hu⟩
    · exact he.trans ih
    · exact absurd (ih.symm.trans hu) (h after)

/-! ## Assemblies -/

/-- The depth of an assembly suffices, because more files would have to be read than there are. -/
theorem tokensFrom_reads (directory : String) (source : List Char) (before : Assembly) :
    Ends (tokensFrom (depthBound before.files) directory source []) before
      (fun _ after => ∃ paths, Gains before after paths)
      (fun failure after => failure ≠ .unfinished ∧ Stops 0 failure before after) := by
  refine (tokensFrom_obeys_inclusion _ directory source [] before).mono (fun _ _ h => h) ?_
  intro failure after hs
  refine ⟨?_, hs.mono (Nat.zero_le _)⟩
  rintro rfl
  cases hs with
  | unfinished h hd =>
    have hlength := h.length_le
    have hfewer : before.files.readable.length ≤ before.files.entries.length :=
      List.length_filter_le _ _
    rw [depthBound] at hd
    omega

end Assembly

/-! ## The keys that are included -/

namespace Included

/-- The included keys are the given ones, that of the source itself, and those of some paths. -/
def AreExactly (included first : Included) (source : Option String) (paths : List String) : Prop :=
  ∀ key, included.contains key ↔
    first.contains key ∨ source.map Files.key = some key ∨ key ∈ paths.map Files.key

/-- What is included where an assembly failed that asked for the given paths. If it failed for a
path, that is the last one, and its key is not included. -/
def AfterFailure (included first : Included) (source : Option String) (paths : List String) :
    Failure → Prop
  | .fault (.unexpectedCharacter ..) => included.AreExactly first source paths
  | .fault (.unreadableImport _ path) =>
    ¬ included.contains (Files.key path) ∧
      ∃ earlier, paths = earlier ++ [path] ∧ included.AreExactly first source earlier
  | .defect defect =>
    defect = .nullInPath ∧ ∃ earlier path, ¬ included.contains (Files.key path) ∧
      paths = earlier ++ [path] ∧ included.AreExactly first source earlier
  | _ => False

theorem contains_adding (first : Included) (source : Option String) (key : String) :
    (first.adding source).contains key ↔
      first.contains key ∨ source.map Files.key = some key := by
  cases source with
  | none => simp [adding]
  | some path =>
    rw [adding, Table.contains_insert, Option.map_some, Option.some_inj, or_comm, @eq_comm _ key]

end Included

namespace Assembly
variable {before after : Assembly} {source : Option String} {paths : List String}

/-- An assembly whose source is the text of a file, if a file is given. -/
def starting (before : Assembly) (source : Option String) : Assembly :=
  { before with included := before.included.adding source }

/-- Paths that are asked for one after the other, on an assembly with a file of its own. -/
structure Asks (before : Assembly) (source : Option String) (paths : List String) : Prop where
  length_le : paths.length ≤ 2 * before.files.readable.length + 1
  distinct : (paths.map Files.key).Nodup
  fresh : ∀ path ∈ paths, ¬ before.included.contains (Files.key path) ∧
    source.map Files.key ≠ some (Files.key path)

theorem Gains.areExactly (h : Gains (before.starting source) after paths) :
    after.included.AreExactly before.included source paths := by
  intro key
  rw [h.included, starting, Included.contains_adding, or_assoc]

theorem Gains.asks (h : Gains (before.starting source) after paths) :
    Asks before source paths where
  length_le := Nat.le_succ_of_le h.length_le
  distinct := h.distinct
  fresh path hm := by
    have hfresh := h.fresh path hm
    rw [starting, Included.contains_adding, not_or] at hfresh
    exact hfresh

/-- One more path may be asked for that is not found. -/
theorem Gains.asks_last (h : Gains (before.starting source) after paths) {path : String}
    (hc : ¬ after.included.contains (Files.key path)) : Asks before source (paths ++ [path]) where
  length_le := by
    rw [List.length_append]
    exact Nat.succ_le_succ h.length_le
  distinct := by
    rw [List.map_append, List.map_singleton, List.nodup_append]
    refine ⟨h.distinct, by simp, fun key hk last hl he => hc ?_⟩
    rw [← List.mem_singleton.1 hl, ← he]
    exact (h.included key).2 (.inr hk)
  fresh read hm := by
    rcases List.mem_append.1 hm with hm | hm
    · exact h.asks.fresh read hm
    · have hnot := hc
      rw [h.areExactly, not_or, not_or] at hnot
      rw [List.mem_singleton.1 hm]
      exact ⟨hnot.1, hnot.2.1⟩

theorem Stops.exists_asks {failure : Failure}
    (hs : Stops 0 failure (before.starting source) after) (hne : failure ≠ .unfinished) :
    ∃ paths, Asks before source paths ∧ after.opened = before.opened ++ paths ∧
      after.included.AfterFailure before.included source paths failure := by
  cases hs with
  | lexical h => exact ⟨_, h.asks, h.opened, h.areExactly⟩
  | unreadable h hc =>
    refine ⟨_, h.asks_last hc, ?_, hc, _, rfl, h.areExactly⟩
    rw [opened_asked, h.opened, List.append_assoc]
    rfl
  | nullInPath h hc =>
    refine ⟨_, h.asks_last hc, ?_, rfl, _, _, hc, rfl, h.areExactly⟩
    rw [opened_asked, h.opened, List.append_assoc]
    rfl
  | unfinished => exact absurd rfl hne

/-- The paths that are asked for, and what is included where the assembly ends. -/
theorem tokensFrom_asks (directory : String) (text : List Char) (source : Option String)
    (before : Assembly) :
    ∃ asked, Asks before source asked ∧
      Ends (tokensFrom (depthBound before.files) directory text []) (before.starting source)
        (fun _ after => after.opened = before.opened ++ asked ∧
          after.included.AreExactly before.included source asked)
        (fun failure after => after.opened = before.opened ++ asked ∧
          after.included.AfterFailure before.included source asked failure) := by
  have hreads := tokensFrom_reads directory text (before.starting source)
  cases hrun : tokensFrom (depthBound before.files) directory text [] (before.starting source) with
  | ok found after =>
    obtain ⟨paths, h⟩ := hreads.of_ok hrun
    exact ⟨paths, h.asks, by simpa only [Ends, hrun] using ⟨h.opened, h.areExactly⟩⟩
  | error failure after =>
    obtain ⟨hne, hs⟩ := hreads.of_error hrun
    obtain ⟨paths, hasks, hafter⟩ := hs.exists_asks hne
    exact ⟨paths, hasks, by simpa only [Ends, hrun] using hafter⟩

end Assembly

/-- Whatever the files import, the tokens of a source are found or the search for them fails, no
deeper than the depth that is set for it. The paths that are asked for have keys of their own, which
were not included before, and there is at most one more of them than the readable files have
absolute paths. Afterwards just the keys of the files that were read are included in addition. -/
theorem imports_included_once (directory source : String) (path : Option String)
    (before : Assembly) :
    (∀ depth, Assembly.depthBound before.files ≤ depth →
      Assembly.tokensFrom depth directory source.toList [] (before.starting path) =
        Assembly.tokensFrom (Assembly.depthBound before.files) directory source.toList []
          (before.starting path)) ∧
    ∃ asked : List String,
      asked.length ≤ 2 * before.files.readable.length + 1 ∧
      (asked.map Files.key).Nodup ∧
      (∀ other ∈ asked, ¬ before.included.contains (Files.key other) ∧
        path.map Files.key ≠ some (Files.key other)) ∧
      Ends (Assembly.tokens directory source) (before.starting path)
        (fun _ after => after.opened = before.opened ++ asked ∧
          after.included.AreExactly before.included path asked)
        (fun failure after => after.opened = before.opened ++ asked ∧
          after.included.AfterFailure before.included path asked failure) := by
  constructor
  · intro depth hle
    refine Assembly.tokensFrom_eq_of_le (fun after hu => ?_) hle
    exact ((Assembly.tokensFrom_reads _ _ (before.starting path)).of_error hu).1 rfl
  · obtain ⟨asked, hasks, hends⟩ :=
      Assembly.tokensFrom_asks directory source.toList path before
    refine ⟨asked, hasks.length_le, hasks.distinct, hasks.fresh, ?_⟩
    rw [Assembly.ends_tokens]
    exact hends

end PrefixScript
