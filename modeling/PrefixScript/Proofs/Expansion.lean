import PrefixScript.Assembly
import PrefixScript.Proofs.Outcome

/-!
# What an import directive does

An import directive of a file that was included before leaves a warning. Any other one asks for its
file: it fails there, or the file counts as included from then on and is processed like a source.
All that is said about imports is derived from this one case distinction, `ends_expand`.
-/
namespace PrefixScript

@[simp] theorem World.opened_read (world : World) (path : String) :
    (world.read path).2.opened = world.opened ++ [path] := by
  simp [World.read, World.record, World.opened]

@[simp] theorem World.files_read (world : World) (path : String) :
    (world.read path).2.files = world.files := rfl

@[simp] theorem World.opened_write (world : World) (text : Styled) :
    (world.write text).opened = world.opened := by
  simp [World.write, World.record, World.opened]

@[simp] theorem World.files_write (world : World) (text : Styled) :
    (world.write text).files = world.files := rfl

namespace Files

theorem unifyBreaks_eq {text : List Char} (h : '\r' ∉ text) (acc : List Char) :
    unifyBreaks text acc = acc.reverse ++ text := by
  induction text generalizing acc with
  | nil => rw [unifyBreaks, List.append_nil]
  | cons c rest ih =>
    rw [List.mem_cons, not_or] at h
    have hc : c ≠ '\r' := Ne.symm h.1
    have hstep : unifyBreaks (c :: rest) acc = unifyBreaks rest (c :: acc) := by
      simp [unifyBreaks, hc]
    rw [hstep, ih h.2, List.reverse_cons, List.append_assoc, List.singleton_append]

theorem fromUTF8?_toUTF8 (text : String) : String.fromUTF8? text.toUTF8 = some text :=
  dif_pos text.isValidUTF8

/-- A text without carriage returns that a file holds is read from it. -/
theorem read_insert (files : Files) {path held text : String} (hp : place path = held)
    (hn : '\x00' ∉ path.toList) (he : path ≠ "") (hr : '\r' ∉ text.toList) :
    Files.read (files.insert held text.toUTF8) path = .text text := by
  have hfind : Table.find? (files.insert held text.toUTF8) (place path) = some text.toUTF8 := by
    rw [Table.find?_insert, if_pos hp]
  have hbind : (Table.find? (files.insert held text.toUTF8) (place path)).bind String.fromUTF8? =
      some text := by
    rw [hfind, Option.bind_some, fromUTF8?_toUTF8]
  have htext : String.ofList (unifyBreaks text.toList []) = text := by
    rw [unifyBreaks_eq hr, List.reverse_nil, List.nil_append, String.ofList_toList]
  rw [read, if_neg (by simpa using hn), if_neg he, hbind]
  exact congrArg _ htext

end Files

namespace Assembly

/-- The files at hand. -/
abbrev files (assembly : Assembly) : Files := assembly.host.world.files

/-- The paths opened so far. -/
abbrev opened (assembly : Assembly) : List String := assembly.host.world.opened

/-- The files that are being processed. -/
abbrev trace (assembly : Assembly) : List String := assembly.host.trace

/-! ## States along the way -/

/-- A path was asked for. -/
def asked (assembly : Assembly) (path : String) : Assembly :=
  { assembly with host := { assembly.host with world := (assembly.host.world.read path).2 } }

/-- A path was asked for and found, and is being processed. -/
def entered (assembly : Assembly) (path : String) : Assembly :=
  { host := { (assembly.asked path).host with trace := assembly.trace ++ [path] }
    included := assembly.included.insert (Files.key path) () }

/-- A file is processed. -/
def left (assembly : Assembly) (path : String) : Assembly :=
  { assembly with host := { assembly.host with trace := assembly.trace.erase path } }

/-- A file was included before. -/
def warned (assembly : Assembly) (name : String) : Assembly :=
  { assembly with
    host := { assembly.host with
      world := assembly.host.world.write (Host.warning assembly.trace (skipped name)) } }

section Fields
variable (assembly : Assembly) (path : String)

@[simp] theorem files_asked : (assembly.asked path).files = assembly.files := rfl
@[simp] theorem files_entered : (assembly.entered path).files = assembly.files := rfl
@[simp] theorem files_left : (assembly.left path).files = assembly.files := rfl
@[simp] theorem files_warned : (assembly.warned path).files = assembly.files := rfl

@[simp] theorem opened_asked : (assembly.asked path).opened = assembly.opened ++ [path] :=
  World.opened_read _ _

@[simp] theorem opened_entered : (assembly.entered path).opened = assembly.opened ++ [path] :=
  World.opened_read _ _

@[simp] theorem opened_left : (assembly.left path).opened = assembly.opened := rfl

@[simp] theorem opened_warned : (assembly.warned path).opened = assembly.opened :=
  World.opened_write _ _

@[simp] theorem included_asked : (assembly.asked path).included = assembly.included := rfl

@[simp] theorem included_entered :
    (assembly.entered path).included = assembly.included.insert (Files.key path) () := rfl

@[simp] theorem included_left : (assembly.left path).included = assembly.included := rfl
@[simp] theorem included_warned : (assembly.warned path).included = assembly.included := rfl

@[simp] theorem trace_asked : (assembly.asked path).trace = assembly.trace := rfl
@[simp] theorem trace_entered : (assembly.entered path).trace = assembly.trace ++ [path] := rfl
@[simp] theorem trace_left : (assembly.left path).trace = assembly.trace.erase path := rfl
@[simp] theorem trace_warned : (assembly.warned path).trace = assembly.trace := rfl

end Fields

/-! ## Steps -/

section Steps
variable {before : Assembly} {ok : List Token → Assembly → Prop} {bad : Failure → Assembly → Prop}

/-- The three ends of an import directive: it is skipped, its file cannot be opened, or the file is
processed in its place. -/
theorem ends_expand (inner : String → List Char → List Token → AssemblyM (List Token))
    (directory name : String) (earlier : List Token) {path : String}
    (hp : path = Path.absolute (Path.join directory name)) :
    Ends (expand inner directory name earlier) before ok bad ↔
      if before.included.contains (Files.key path) then ok earlier (before.warned name)
      else
        match before.files.read path with
        | .nullInPath => bad (.defect .nullInPath) (before.asked path)
        | .unreadable => bad (.fault (.unreadableImport name path)) (before.asked path)
        | .text content =>
          Ends (inner (Path.parent path) (content.toList ++ ['\n']) earlier) (before.entered path)
            (fun found after => ok found (after.left path)) bad := by
  unfold expand
  simp only [← hp, ends_bind, ends_get]
  split
  · rfl
  · simp only [readImport, ends_bind, ends_get, ends_set]
    -- What the path is opened to decides the case; the world then holds one event more.
    rw [show (before.host.world.read path).1 = before.files.read path from rfl]
    cases before.files.read path with
    | nullInPath => rfl
    | unreadable => rfl
    | text content => rfl

theorem ends_expand_of_text {inner : String → List Char → List Token → AssemblyM (List Token)}
    {directory name path content : String} {earlier : List Token}
    (hp : path = Path.absolute (Path.join directory name))
    (hc : ¬ before.included.contains (Files.key path))
    (hr : before.files.read path = .text content) :
    Ends (expand inner directory name earlier) before ok bad ↔
      Ends (inner (Path.parent path) (content.toList ++ ['\n']) earlier) (before.entered path)
        (fun found after => ok found (after.left path)) bad := by
  rw [ends_expand inner directory name earlier hp, if_neg hc, hr]

theorem ends_expand_of_included {inner : String → List Char → List Token → AssemblyM (List Token)}
    {directory name path : String} {earlier : List Token}
    (hp : path = Path.absolute (Path.join directory name))
    (hc : before.included.contains (Files.key path)) :
    Ends (expand inner directory name earlier) before ok bad ↔
      ok earlier (before.warned name) := by
  rw [ends_expand inner directory name earlier hp, if_pos hc]

/-- The tokens of a source are those of its pieces, unless something is left of it. -/
theorem ends_tokensFrom (depth : Nat) (directory : String) (source : List Char)
    (earlier : List Token) :
    Ends (tokensFrom (depth + 1) directory source earlier) before ok bad ↔
      Ends (collect (expand (tokensFrom depth) directory) (Scan.ofText source).pieces earlier)
        before (fun found after =>
          if (Scan.ofText source).rest = [] then ok found after
          else bad (.fault (unexpected source (Scan.ofText source).rest)) after) bad := by
  rw [tokensFrom, ends_bind]
  cases (Scan.ofText source).rest <;> rfl

theorem ends_tokens (directory source : String) :
    Ends (tokens directory source) before ok bad ↔
      Ends (tokensFrom (depthBound before.files) directory source.toList []) before
        (fun found after => ok (found.reverse ++ [Token.ending]) after) bad := by
  rw [tokens, ends_bind, ends_get, ends_bind]
  simp only [ends_pure, List.reverse_cons]

/-- What every import directive obeys, the pieces of a source obey. -/
theorem collect_obeyed {law : Law Failure Assembly}
    {expand : String → List Token → AssemblyM (List Token)} {pieces : List Piece}
    (h : ∀ text name, .directive text name ∈ pieces → ∀ earlier, law.Obeyed (expand name earlier))
    (earlier : List Token) : law.Obeyed (collect expand pieces earlier) := by
  induction pieces generalizing earlier with
  | nil => exact .pure earlier
  | cons piece rest ih =>
    have hrest := ih fun text name hm => h text name (List.mem_cons_of_mem piece hm)
    cases piece with
    | token token => exact hrest (token :: earlier)
    | directive text name => exact (h text name List.mem_cons_self earlier).bind hrest
    | comment text => exact hrest earlier
    | blank text => exact hrest earlier

end Steps

end Assembly

theorem Host.ends_tokenize (directory source : String) (path : Option String) {host : Host}
    {ok : List Token → Host → Prop} {bad : Failure → Host → Prop} :
    Ends (Host.tokenize directory path source) host ok bad ↔
      Ends (Assembly.tokens directory source) ⟨host, .ofPath path⟩
        (fun tokens after => ok tokens after.host) fun failure after => bad failure after.host := by
  simp only [Ends, Host.tokenize]
  cases Assembly.tokens directory source ⟨host, .ofPath path⟩ <;> rfl

end PrefixScript
