import PrefixScript.Proofs.Inclusion
import PrefixScript.Proofs.Splicing
import PrefixScript.Session

/-!
# How often a file is read

A path opens the file in its place, whatever number of slashes it starts with. But it counts as
included under its absolute path, and that keeps two slashes at the start apart from one. So two
paths that are asked for in one assembly are in the same place only if their roots differ. Where the
session, its working directory and the import directives write no path with just two slashes at the
start, all roots are one slash, and no file is read twice.
-/
namespace PrefixScript

namespace Path

/-- A path whose root is one slash: it is not written with just two slashes at the start. -/
def Single (path : String) : Prop := root path.toList = ['/']

instance : DecidablePred Single := fun _ => inferInstanceAs (Decidable (_ = _))

theorem Single.join {directory name : String} (hd : Single directory) (hn : Single name) :
    Single (join directory name) := by
  rw [Single, root_join]
  split
  · exact hn
  · exact hd

theorem Single.absolute {path : String} (h : Single path) : Single (absolute path) := by
  rw [Single, root_absolute]
  exact h

theorem Single.parent {path : String} (h : Single path) : Single (parent (Path.absolute path)) := by
  rw [Single, root_parent]
  exact h

end Path

/-- The names in the import directives of a source. -/
def Scan.names (source : List Char) : List String :=
  (ofText source).pieces.filterMap fun
    | .directive _ name => some name
    | _ => none

namespace Files
variable {first second path : String}

/-- If the path opens a text, that text imports no path with just two slashes at the start. -/
def ImportsSingly (files : Files) (path : String) : Prop :=
  ∀ content, files.read path = .text content →
    ∀ name ∈ Scan.names (content.toList ++ ['\n']), Path.Single name

/-- Paths in one place have one key, unless their roots differ. -/
theorem root_ne_of_key_ne (hk : key first ≠ key second) (hp : place first = place second) :
    Path.root first.toList ≠ Path.root second.toList := by
  intro hr
  apply hk
  rw [key, absolute_eq_of_place hp hr, key]

end Files

namespace Assembly

/-- What a source writes: its directory, and the names in its import directives. -/
def WrittenSingly (directory : String) (source : List Char) : Prop :=
  Path.Single directory ∧ ∀ name ∈ Scan.names source, Path.Single name

/-- Just the given paths were opened on the way. Their roots are one slash if nothing else is
written, neither at first nor in the files on the way. -/
structure Opens (written : Prop) (before after : Assembly) (paths : List String) : Prop where
  files : after.files = before.files
  opened : after.opened = before.opened ++ paths
  single : written → (∀ path ∈ paths, before.files.ImportsSingly path) →
    ∀ path ∈ paths, Path.Single path

namespace Opens
variable {written : Prop} {before middle after : Assembly} {path : String}
  {paths more : List String}

theorem of_eq (hf : after.files = before.files) (ho : after.opened = before.opened) :
    Opens written before after [] where
  files := hf
  opened := by rw [ho, List.append_nil]
  single := by simp

theorem trans (h : Opens written before middle paths) (hmore : Opens written middle after more) :
    Opens written before after (paths ++ more) where
  files := hmore.files.trans h.files
  opened := by rw [hmore.opened, h.opened, List.append_assoc]
  single hw hfiles path hm := by
    rcases List.mem_append.1 hm with hm | hm
    · exact h.single hw (fun path hm => hfiles path (List.mem_append_left more hm)) path hm
    · rw [← h.files] at hfiles
      exact hmore.single hw (fun path hm => hfiles path (List.mem_append_right paths hm)) path hm

theorem asked (hs : written → Path.Single path) (before : Assembly) :
    Opens written before (before.asked path) [path] where
  files := files_asked before path
  opened := opened_asked before path
  single hw _ other hm := by
    rw [List.mem_singleton.1 hm]
    exact hs hw

/-- What a file writes counts only if the file was opened. -/
theorem entered (ha : Path.absolute path = path) (hs : written → Path.Single path)
    {content : String} (hr : before.files.read path = .text content)
    (h : Opens (WrittenSingly (Path.parent path) (content.toList ++ ['\n']))
      (before.entered path) after paths) :
    Opens written before after (path :: paths) where
  files := h.files
  opened := by rw [h.opened, opened_entered, List.append_assoc, List.singleton_append]
  single hw hfiles other hm := by
    obtain ⟨hnames, hfiles⟩ := List.forall_mem_cons.1 hfiles
    have hpath := hs hw
    rcases List.mem_cons.1 hm with rfl | hm
    · exact hpath
    · have hparent := hpath.parent
      rw [ha] at hparent
      exact h.single ⟨hparent, hnames content hr⟩ hfiles other hm

theorem left (h : Opens written before after paths) (path : String) :
    Opens written before (after.left path) paths := by
  simpa using h.trans (of_eq (files_left after path) (opened_left after path))

end Opens

/-- How paths are written that an assembly opens, whatever becomes of it. -/
def rootLaw (written : Prop) : Law Failure Assembly where
  kept before after := ∃ paths, Opens written before after paths
  failed _ before after := ∃ paths, Opens written before after paths
  refl _ := ⟨[], .of_eq rfl rfl⟩
  trans := fun ⟨_, h⟩ ⟨_, hmore⟩ => ⟨_, h.trans hmore⟩
  failed_of_kept := fun ⟨_, h⟩ ⟨_, hmore⟩ => ⟨_, h.trans hmore⟩

theorem expand_obeys_root {inner : String → List Char → List Token → AssemblyM (List Token)}
    (hi : ∀ directory source earlier,
      (rootLaw (WrittenSingly directory source)).Obeyed (inner directory source earlier))
    {written : Prop} {directory name : String}
    (hw : written → Path.Single directory ∧ Path.Single name) (earlier : List Token) :
    (rootLaw written).Obeyed (expand inner directory name earlier) := by
  intro before
  have ha := Path.absolute_absolute (Path.join directory name)
  have hs : written → Path.Single (Path.absolute (Path.join directory name)) := fun h =>
    ((hw h).1.join (hw h).2).absolute
  rw [ends_expand inner directory name earlier rfl]
  generalize Path.absolute (Path.join directory name) = path at ha hs
  split
  · exact ⟨[], .of_eq (files_warned before name) (opened_warned before name)⟩
  · cases hr : before.files.read path with
    | nullInPath => exact ⟨_, .asked hs before⟩
    | unreadable => exact ⟨_, .asked hs before⟩
    | text content =>
      refine (hi _ _ _ _).mono (fun found after h => ?_) fun failure after h => ?_
      · obtain ⟨paths, hpaths⟩ := h
        exact ⟨_, (hpaths.entered ha hs hr).left path⟩
      · obtain ⟨paths, hpaths⟩ := h
        exact ⟨_, hpaths.entered ha hs hr⟩

/-- The induction is on the depth of the imports. -/
theorem tokensFrom_obeys_root (depth : Nat) (directory : String) (source : List Char)
    (earlier : List Token) :
    (rootLaw (WrittenSingly directory source)).Obeyed
      (tokensFrom depth directory source earlier) := by
  induction depth generalizing directory source earlier with
  | zero => exact fun before => ⟨[], .of_eq rfl rfl⟩
  | succ depth ih =>
    intro before
    have hpieces : ∀ text name, .directive text name ∈ (Scan.ofText source).pieces → ∀ earlier,
        (rootLaw (WrittenSingly directory source)).Obeyed
          (expand (tokensFrom depth) directory name earlier) := by
      intro text name hm
      have hname : name ∈ Scan.names source := List.mem_filterMap.2 ⟨_, hm, rfl⟩
      exact expand_obeys_root ih fun hw => ⟨hw.1, hw.2 name hname⟩
    rw [ends_tokensFrom]
    refine (collect_obeyed hpieces earlier before).mono (fun found after h => ?_) fun _ _ h => h
    split
    · exact h
    · exact h

/-- Paths that are asked for, and the file of the source, are in the same place only if their roots
differ. -/
theorem Asks.root_ne {before : Assembly} {source : Option String} {paths : List String}
    (h : Asks before source paths) :
    (source.toList ++ paths).Pairwise fun first second =>
      Files.place first = Files.place second →
        Path.root first.toList ≠ Path.root second.toList := by
  have hkeys : (source.toList ++ paths).Pairwise fun first second =>
      Files.key first ≠ Files.key second := by
    rw [List.pairwise_append]
    refine ⟨by cases source <;> simp, List.pairwise_map.1 h.distinct, fun own ho path hm => ?_⟩
    rw [Option.mem_toList] at ho
    have hown := (h.fresh path hm).2
    rw [ho] at hown
    simpa using hown
  exact hkeys.imp Files.root_ne_of_key_ne

end Assembly

namespace Session
variable {session : Session} {host : Host} {working path : String}

theorem path_of_mem_file? (h : path ∈ session.file?) : path = session.path := by
  unfold file? at h
  split at h
  · cases h
  · exact (Option.some.inj h).symm

theorem path_of_mem_located? (h : path ∈ session.located? working) :
    path = Path.join working session.path := by
  obtain ⟨file, hfile, rfl⟩ := Option.mem_map.1 h
  rw [path_of_mem_file? hfile]

theorem single_directory (hw : Path.Single working) (h : Path.Single session.path) :
    Path.Single (session.directory working) := by
  unfold directory
  cases hl : session.located? working with
  | none => exact hw
  | some path =>
    rw [path_of_mem_located? hl]
    exact (hw.join h).parent

@[simp] theorem located?_interactive (working : String) : interactive.located? working = none := by
  rw [located?, show interactive.file? = none from if_pos rfl, Option.map_none]

/-- Sources that are in no file import from the working directory. -/
@[simp] theorem directory_interactive (working : String) :
    interactive.directory working = working := by
  rw [directory, located?_interactive]

/-- Where the assembly of a text starts, for the host of a session. -/
abbrev assembly (session : Session) (host : Host) : Assembly :=
  ⟨host, .ofPath (session.located? host.world.working)⟩

/-- The tokens of a text are found by an assembly that starts there. -/
theorem ends_tokenize {ok : List Token → Host → Prop} {bad : Failure → Host → Prop}
    (text : String) :
    Ends (session.tokenize text) host ok bad ↔
      Ends (Assembly.tokensFrom (Assembly.depthBound host.world.files)
          (session.directory host.world.working) text.toList []) (session.assembly host)
        (fun found after => ok (found.reverse ++ [Token.ending]) after.host)
        fun failure after => bad failure after.host := by
  rw [tokenize, ends_bind, ends_get, Host.ends_tokenize, Assembly.ends_tokens]

end Session

/-- The session's file and the files that are asked for while it finds the tokens of a source: two
of them are the same file only if one is written with just two slashes at the start and the other is
not. If nothing is written so, no file is read twice, and the session's file is not read. Where the
tokens are found, the files that are asked for are those that are spliced in, each at one place. -/
theorem files_read_once (session : Session) (source : String) (host : Host) :
    let working := host.world.working
    let own := session.located? working
    ∃ asked : List String,
      Ends (session.tokenize source) host
        (fun tokens after => after.world.opened = host.world.opened ++ asked ∧
          ∃ pieces front included, tokens = front ++ [Token.ending] ∧
            Scan.ofText source.toList = ⟨pieces, []⟩ ∧
            Spliced host.world.files (session.directory working) pieces (.ofPath own) asked front
              included)
        (fun _ after => after.world.opened = host.world.opened ++ asked) ∧
      (own.toList ++ asked).Pairwise (fun first second =>
        Files.place first = Files.place second →
          Path.root first.toList ≠ Path.root second.toList) ∧
      (Path.Single working → Path.Single session.path →
        (∀ name ∈ Scan.names source.toList, Path.Single name) →
        (∀ path ∈ asked, host.world.files.ImportsSingly path) →
        ((own.toList ++ asked).map Files.place).Nodup) := by
  intro working own
  obtain ⟨asked, hasks, hends⟩ :=
    Assembly.tokensFrom_asks (session.directory working) source.toList own ⟨host, .empty⟩
  have hroot := Assembly.tokensFrom_obeys_root (Assembly.depthBound host.world.files)
    (session.directory working) source.toList [] (.starting ⟨host, .empty⟩ own)
  have hsplices := Assembly.tokensFrom_splices (Assembly.depthBound host.world.files)
    (session.directory working) source.toList [] (.starting ⟨host, .empty⟩ own)
  refine ⟨asked, ?_, hasks.root_ne, fun hw hpath hnames hfiles => ?_⟩
  · rw [Session.ends_tokenize]
    refine (hends.and hsplices).mono (fun found after h => ?_) fun failure after h => h.1.1
    obtain ⟨⟨hopened, -⟩, pieces, paths, front, rfl, hscan, hspliced, -, hpaths⟩ := h
    have hsame : paths = asked := List.append_cancel_left (hpaths.symm.trans hopened)
    exact ⟨hopened, pieces, front, _, by simp, hscan, hsame ▸ hspliced⟩
  · have hwritten : Assembly.WrittenSingly (session.directory working) source.toList :=
      ⟨Session.single_directory hw hpath, hnames⟩
    have hsame (after : Assembly) (hopened : after.opened = host.world.opened ++ asked)
        (h : ∃ paths, Assembly.Opens
          (Assembly.WrittenSingly (session.directory working) source.toList)
          (.starting ⟨host, .empty⟩ own) after paths) :
        ∀ path ∈ asked, Path.Single path := by
      obtain ⟨paths, h⟩ := h
      have he : paths = asked := List.append_cancel_left (h.opened.symm.trans hopened)
      rw [he] at h
      exact h.single hwritten hfiles
    have hasked : ∀ path ∈ asked, Path.Single path :=
      ((hends.and hroot).mono (fun _ after h => hsame after h.1.1 h.2)
        fun _ after h => hsame after h.1.1 h.2).of_const
    have hall : ∀ path ∈ own.toList ++ asked, Path.Single path := by
      intro path hm
      rcases List.mem_append.1 hm with hm | hm
      · rw [Session.path_of_mem_located? (Option.mem_toList.1 hm)]
        exact hw.join hpath
      · exact hasked path hm
    rw [List.Nodup, List.pairwise_map]
    refine hasks.root_ne.imp_of_mem fun hf hs hne hplace => ?_
    exact hne hplace ((hall _ hf).trans (hall _ hs).symm)

/-- The file is imported under three spellings, and imports the session's file back. -/
theorem files_read_once_respelled :
    let files : Files := Table.empty.insert "/x" "IMP \"./m\"".toUTF8
    let host : Host := .start ⟨files, [], fun _ => 0, 0, [], "/"⟩ true
    ∃ asked : List String,
      Ends (Session.tokenize ⟨"/m"⟩ "IMP \"x\" IMP \"./X\" IMP \"/y//../x\"") host
        (fun _ after => after.world.opened = asked) (fun _ after => after.world.opened = asked) ∧
      (("/m" :: asked).map Files.place).Nodup := by
  intro files host
  have hnames : Scan.names "IMP \"x\" IMP \"./X\" IMP \"/y//../x\"".toList =
      ["x", "./X", "/y//../x"] := by cbv
  have hinner : Scan.names ("IMP \"./m\"".toList ++ ['\n']) = ["./m"] := by cbv
  have hfiles (path : String) : host.world.files.ImportsSingly path := by
    intro content hr
    obtain ⟨bytes, text, hfind, hbytes, rfl⟩ := Files.exists_of_read hr
    rw [show host.world.files.find? (Files.place path) = _ from Table.find?_insert _ _ _ _] at hfind
    split at hfind
    · cases hfind
      cases (Files.fromUTF8?_toUTF8 _).symm.trans hbytes
      rw [Files.unifyBreaks_eq (by decide), List.reverse_nil, List.nil_append,
        String.toList_ofList, hinner]
      decide
    · cases hfind
  clear_value files
  generalize "IMP \"x\" IMP \"./X\" IMP \"/y//../x\"" = source at hnames ⊢
  have hown : Session.located? ⟨"/m"⟩ "/" = some "/m" := by decide
  obtain ⟨asked, hends, -, honce⟩ := files_read_once ⟨"/m"⟩ source host
  rw [show host.world.working = "/" from rfl, hown] at honce
  refine ⟨asked, hends.mono (fun _ _ h => h.1) fun _ _ h => h, ?_⟩
  exact honce (by decide) (by decide) (by rw [hnames]; decide) fun path _ => hfiles path

/-- With just two slashes at the start of the second path, the file is read twice, and its tokens
stand twice in the list. -/
theorem file_read_twice_under_two_roots :
    let files : Files := Table.empty.insert "/x" "print 1".toUTF8
    let host : Host := .start ⟨files, [], fun _ => 0, 0, [], "/"⟩ true
    let own : List Token := [⟨.printWord, "print"⟩, ⟨.number, "1"⟩]
    ∃ after, Session.interactive.tokenize "IMP \"/x\" IMP \"//x\"" host =
        .ok (own ++ own ++ [Token.ending]) after ∧
      after.world.opened = ["/x", "//x"] ∧ ¬ (after.world.opened.map Files.place).Nodup := by
  intro files host own
  have hread (path : String) (hp : Files.place path = "/x") (hn : '\x00' ∉ path.toList)
      (he : path ≠ "") : host.world.files.read path = .text "print 1" :=
    Files.read_insert _ hp hn he (by decide)
  have hbound : Assembly.depthBound host.world.files = 3 := rfl
  clear_value files
  have hends : Ends (Session.interactive.tokenize "IMP \"/x\" IMP \"//x\"") host
      (fun found after => found = own ++ own ++ [Token.ending] ∧
        after.world.opened = ["/x", "//x"]) fun _ _ => False := by
    have hsource : Scan.ofText "IMP \"/x\" IMP \"//x\"".toList =
        ⟨[.directive "IMP \"/x\"" "/x", .blank " ", .directive "IMP \"//x\"" "//x"], []⟩ := by cbv
    have hinner : Scan.ofText ("print 1".toList ++ ['\n']) =
        ⟨[.token ⟨.printWord, "print"⟩, .blank " ", .token ⟨.number, "1"⟩, .blank "\n"], []⟩ := by
      cbv
    have hfirst : ¬ (Included.ofPath none).contains (Files.key "/x") := by decide
    have hsecond : ¬ ((Included.ofPath none).insert (Files.key "/x") ()).contains
        (Files.key "//x") := by decide
    rw [Session.ends_tokenize, Session.directory_interactive,
      show host.world.working = "/" from rfl, hbound, Assembly.ends_tokensFrom, hsource]
    simp only [Assembly.collect, ends_bind, ends_pure, if_true]
    rw [Assembly.ends_expand_of_text (show "/x" = _ by decide) hfirst
      (hread "/x" (by decide) (by decide) (by decide)), Assembly.ends_tokensFrom, hinner]
    simp only [Assembly.collect, ends_pure, if_true]
    rw [Assembly.ends_expand_of_text (show "//x" = _ by decide) hsecond
      (hread "//x" (by decide) (by decide) (by decide)), Assembly.ends_tokensFrom, hinner]
    simp only [Assembly.collect, ends_pure, if_true]
    exact ⟨rfl, rfl⟩
  obtain ⟨found, after, hok, htokens, hopened⟩ := hends.exists_ok_and
  refine ⟨after, hok.trans (by rw [htokens]), hopened, ?_⟩
  rw [hopened]
  decide

end PrefixScript
