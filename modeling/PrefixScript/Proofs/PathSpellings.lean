import Mathlib.Data.List.DropRight
import PrefixScript.Files

/-!
# Spellings of paths

An absolute path is its root, which is one slash or two, and its parts. Making an absolute path
absolute again changes nothing, so a file can be asked for under two absolute paths at most: with
one slash at the start, which is how files are held, and with two. Which of the two it is does not
change on the way from a directory to a file in it, nor on the way back.
-/
namespace PrefixScript

namespace Path
variable {text part : List Char} {parts stack : List (List Char)}

/-! ## Parts -/

/-- A part of an absolute path. -/
structure Plain (part : List Char) : Prop where
  ne_nil : part ≠ []
  ne_dot : part ≠ ['.']
  ne_dots : part ≠ ['.', '.']
  slashless : '/' ∉ part

theorem split_slash (rest : List Char) : split ('/' :: rest) = [] :: split rest := rfl

theorem split_cons {c : Char} (hc : c ≠ '/') {rest : List Char} (h : split rest = part :: parts) :
    split (c :: rest) = (c :: part) :: parts := by
  rw [split.eq_3 c rest (by simpa using hc), h]

theorem split_ne_nil (text : List Char) : split text ≠ [] := by
  cases text with
  | nil => simp [split]
  | cons c rest =>
    unfold split
    split
    · simp
    · simp
    · split <;> simp

theorem split_append (hp : '/' ∉ part) (rest : List Char) :
    split (part ++ '/' :: rest) = part :: split rest := by
  induction part with
  | nil => rfl
  | cons c part ih =>
    rw [List.mem_cons, not_or] at hp
    obtain ⟨hc, hp⟩ := hp
    exact split_cons (Ne.symm hc) (ih hp)

theorem split_slashless (hp : '/' ∉ part) : split part = [part] := by
  induction part with
  | nil => rfl
  | cons c part ih =>
    rw [List.mem_cons, not_or] at hp
    obtain ⟨hc, hp⟩ := hp
    exact split_cons (Ne.symm hc) (ih hp)

/-- Parts without slashes that are joined by slashes are found again. -/
theorem split_intercalate (hne : parts ≠ []) (hparts : ∀ part ∈ parts, '/' ∉ part) :
    split (['/'].intercalate parts) = parts := by
  induction parts with
  | nil => exact absurd rfl hne
  | cons part rest ih =>
    obtain ⟨hp, hrest⟩ := List.forall_mem_cons.1 hparts
    cases rest with
    | nil => rw [List.intercalate_singleton, split_slashless hp]
    | cons next rest =>
      rw [List.intercalate_cons_cons, List.append_assoc, List.singleton_append, split_append hp,
        ih (by simp) hrest]

theorem slashless_of_mem_split (h : part ∈ split text) : '/' ∉ part := by
  induction text generalizing part with
  | nil =>
    rw [split, List.mem_singleton] at h
    simp [h]
  | cons c rest ih =>
    by_cases hc : c = '/'
    · rw [hc, split_slash] at h
      rcases List.mem_cons.1 h with rfl | h
      · simp
      · exact ih h
    · obtain ⟨first, others, hs⟩ := List.exists_cons_of_ne_nil (split_ne_nil rest)
      rw [split_cons hc hs] at h
      rw [hs] at ih
      rcases List.mem_cons.1 h with rfl | h
      · rw [List.mem_cons, not_or]
        exact ⟨Ne.symm hc, ih List.mem_cons_self⟩
      · exact ih (List.mem_cons_of_mem first h)

/-- One more part keeps a stack of plain parts plain. -/
theorem plain_push (hstack : ∀ part ∈ stack, Plain part) (hp : '/' ∉ part) :
    ∀ other ∈ push stack part, Plain other := by
  unfold push
  split
  · exact hstack
  · rename_i hfirst
    rw [not_or] at hfirst
    split
    · exact fun other hm => hstack other (List.mem_of_mem_tail hm)
    · rename_i hdots
      exact List.forall_mem_cons.2 ⟨⟨hfirst.1, hfirst.2, hdots, hp⟩, hstack⟩

theorem plain_foldl_push (hparts : ∀ part ∈ parts, '/' ∉ part)
    (hstack : ∀ part ∈ stack, Plain part) : ∀ part ∈ parts.foldl push stack, Plain part := by
  induction parts generalizing stack with
  | nil => exact hstack
  | cons part rest ih =>
    obtain ⟨hp, hrest⟩ := List.forall_mem_cons.1 hparts
    exact ih hrest (plain_push hstack hp)

/-- Plain parts are all kept. -/
theorem foldl_push_plain (hparts : ∀ part ∈ parts, Plain part) :
    parts.foldl push stack = parts.reverse ++ stack := by
  induction parts generalizing stack with
  | nil => rfl
  | cons part rest ih =>
    obtain ⟨hp, hrest⟩ := List.forall_mem_cons.1 hparts
    have hpush : push stack part = part :: stack := by
      rw [push, if_neg (by simp [hp.ne_nil, hp.ne_dot]), if_neg hp.ne_dots]
    rw [List.foldl_cons, hpush, ih hrest, List.reverse_cons, List.append_assoc,
      List.singleton_append]

/-! ## Absolute paths -/

/-- A root, and a rest that does not go on with a slash. -/
structure Rooted (slashes body : List Char) : Prop where
  slashes : slashes = ['/'] ∨ slashes = ['/', '/']
  body : body.head? ≠ some '/'

theorem root_cases (text : List Char) : root text = ['/'] ∨ root text = ['/', '/'] := by
  unfold root
  split <;> simp

theorem Rooted.root_eq {slashes body : List Char} (h : Rooted slashes body) :
    root (slashes ++ body) = slashes := by
  obtain ⟨hs, hb⟩ := h
  cases body with
  | nil => rcases hs with rfl | rfl <;> rfl
  | cons c body =>
    have hc : c ≠ '/' := by simpa using hb
    rcases hs with rfl | rfl
    · simp [root, hc]
    · simp [root, hc]

/-- The parts of the absolute path that a path stands for. -/
def partsOf (path : String) : List (List Char) := ((split path.toList).foldl push []).reverse

theorem plain_partsOf (path : String) : ∀ part ∈ partsOf path, Plain part := by
  intro part hm
  have hsplit : ∀ part ∈ split path.toList, '/' ∉ part := fun part => slashless_of_mem_split
  exact plain_foldl_push hsplit (by simp) part (List.mem_reverse.1 hm)

theorem head?_intercalate (h : ∀ part ∈ parts, Plain part) :
    (['/'].intercalate parts).head? ≠ some '/' := by
  cases parts with
  | nil => simp
  | cons part rest =>
    obtain ⟨hp, -⟩ := List.forall_mem_cons.1 h
    obtain ⟨c, more, rfl⟩ := List.exists_cons_of_ne_nil hp.ne_nil
    have hc : c ≠ '/' := fun he => hp.slashless (he ▸ List.mem_cons_self)
    rw [List.intercalate_cons_cons_left]
    simpa using hc

theorem toList_absolute (path : String) :
    (absolute path).toList = root path.toList ++ ['/'].intercalate (partsOf path) := by
  rw [absolute, String.toList_ofList, partsOf]

theorem rooted_absolute (path : String) :
    Rooted (root path.toList) (['/'].intercalate (partsOf path)) :=
  ⟨root_cases _, head?_intercalate (plain_partsOf path)⟩

@[simp] theorem root_absolute (path : String) :
    root (absolute path).toList = root path.toList := by
  rw [toList_absolute, (rooted_absolute path).root_eq]

/-- The slashes of the root are no parts. -/
theorem foldl_push_split_root {slashes : List Char} (h : slashes = ['/'] ∨ slashes = ['/', '/']) :
    (split (slashes ++ text)).foldl push [] = (split text).foldl push [] := by
  rcases h with rfl | rfl <;> rfl

theorem partsOf_absolute (path : String) : partsOf (absolute path) = partsOf path := by
  have hplain := plain_partsOf path
  rw [partsOf, toList_absolute, foldl_push_split_root (root_cases _)]
  by_cases hne : partsOf path = []
  · rw [hne]
    rfl
  · rw [split_intercalate hne fun part hm => (hplain part hm).slashless, foldl_push_plain hplain,
      List.append_nil, List.reverse_reverse]

/-- An absolute path stands for itself. -/
@[simp] theorem absolute_absolute (path : String) : absolute (absolute path) = absolute path := by
  apply String.toList_injective
  rw [toList_absolute, root_absolute, partsOf_absolute, toList_absolute]

/-! ## From directories to files and back -/

/-- An absolute path is seen from everywhere as it is. -/
theorem join_of_absolute {path : String} (h : absolute path = path) (directory : String) :
    join directory path = path := by
  have hhead : path.toList.head? = some '/' := by
    rw [← h, toList_absolute]
    rcases root_cases path.toList with hr | hr <;> rw [hr] <;> rfl
  rw [join, if_pos hhead]

theorem root_three (a b c : Char) (rest : List Char) :
    root (a :: b :: c :: rest) = if a = '/' ∧ b = '/' ∧ c ≠ '/' then ['/', '/'] else ['/'] := by
  by_cases ha : a = '/'
  · by_cases hb : b = '/'
    · by_cases hc : c = '/' <;> simp [root, ha, hb, hc]
    · simp [root, ha, hb]
  · simp [root, ha]

/-- A path goes on with its root if what is added does not lengthen a run of slashes. -/
theorem root_append {front back : List Char}
    (h : back.head? ≠ some '/' ∨ front ≠ [] ∧ front.getLast? ≠ some '/') :
    root (front ++ back) = root front := by
  match front with
  | [] =>
    have hb : back.head? ≠ some '/' := by simpa using h
    cases back with
    | nil => rfl
    | cons c back =>
      have hc : c ≠ '/' := by simpa using hb
      simp [root, hc]
  | [a] =>
    by_cases ha : a = '/'
    · have hb : back.head? ≠ some '/' := by simpa [ha] using h
      rw [ha]
      exact Rooted.root_eq ⟨.inl rfl, hb⟩
    · simp [root, ha]
  | [a, b] =>
    by_cases hab : a = '/' ∧ b = '/'
    · have hb : back.head? ≠ some '/' := by simpa [hab.2] using h
      rw [hab.1, hab.2]
      exact Rooted.root_eq ⟨.inr rfl, hb⟩
    · have hne : ∀ rest, root (a :: b :: rest) = ['/'] := by
        intro rest
        by_cases ha : a = '/'
        · have hb : b ≠ '/' := fun hb => hab ⟨ha, hb⟩
          simp [root, ha, hb]
        · simp [root, ha]
      rw [List.cons_append, List.cons_append, hne, hne]
  | a :: b :: c :: rest => rw [List.cons_append, List.cons_append, List.cons_append, root_three,
      root_three]

/-- A path is as rooted as it is written, or else as its directory. -/
theorem root_join (directory name : String) :
    root (join directory name).toList =
      if name.toList.head? = some '/' then root name.toList else root directory.toList := by
  unfold join
  by_cases hn : name.toList.head? = some '/'
  · rw [if_pos hn, if_pos hn]
  · rw [if_neg hn, if_neg hn]
    by_cases hd : directory = "" ∨ directory.toList.getLast? = some '/'
    · rw [if_pos hd, String.toList_append, root_append (.inl hn)]
    · rw [not_or] at hd
      have hne : directory.toList ≠ [] := by simpa using hd.1
      rw [if_neg (by simpa [not_or] using hd), String.toList_append, String.toList_append,
        List.append_assoc, root_append (.inr ⟨hne, hd.2⟩)]

/-- What goes at the end of a text goes from its second half, or from all of it. -/
theorem rdropWhile_append (p : Char → Bool) (first second : List Char) :
    (first ++ second).rdropWhile p =
      if second.rdropWhile p = [] then first.rdropWhile p else first ++ second.rdropWhile p := by
  simp only [List.rdropWhile, List.reverse_append, List.dropWhile_append, List.isEmpty_iff,
    List.reverse_eq_nil_iff]
  split
  · rfl
  · rw [List.reverse_append, List.reverse_reverse]

/-- The directory of a rooted path keeps the root, and the start of what stands behind it. -/
theorem toList_parent {path : String} {slashes body : List Char} (h : Rooted slashes body)
    (ht : path.toList = slashes ++ body) :
    ∃ inner, inner <+: body ∧ (parent path).toList = slashes ++ inner := by
  have hfront : path.toList.rdropWhile (· != '/') = slashes ++ body.rdropWhile (· != '/') := by
    rw [ht, rdropWhile_append]
    split
    · rename_i hnil
      rw [hnil, List.append_nil]
      rcases h.slashes with rfl | rfl <;> rfl
    · rfl
  have hparent : (parent path).toList =
      if (path.toList.rdropWhile (· != '/')).rdropWhile (· == '/') = [] then
        path.toList.rdropWhile (· != '/')
      else (path.toList.rdropWhile (· != '/')).rdropWhile (· == '/') := by
    rw [parent, String.toList_ofList]
    exact if_congr List.isEmpty_iff rfl rfl
  rw [hfront] at hparent
  have hprefix : body.rdropWhile (· != '/') <+: body := List.rdropWhile_prefix _ _
  by_cases hall : (slashes ++ body.rdropWhile (· != '/')).rdropWhile (· == '/') = []
  · rw [if_pos hall] at hparent
    exact ⟨_, hprefix, hparent⟩
  · rw [if_neg hall, rdropWhile_append] at hparent
    rw [rdropWhile_append] at hall
    split at hparent
    · rename_i hnil
      -- The root has slashes only, so something of the body is left.
      rw [if_pos hnil] at hall
      exact absurd (by rcases h.slashes with rfl | rfl <;> rfl) hall
    · exact ⟨_, (List.rdropWhile_prefix _ _).trans hprefix, hparent⟩

/-- The directory of an absolute path has its root. -/
theorem root_parent (path : String) :
    root (parent (absolute path)).toList = root path.toList := by
  have hrooted := rooted_absolute path
  obtain ⟨inner, hinner, hparent⟩ := toList_parent hrooted (toList_absolute path)
  have hhead : inner.head? ≠ some '/' := by
    have hbody := hrooted.body
    obtain ⟨behind, hb⟩ := hinner
    rw [← hb] at hbody
    cases inner with
    | nil => simp
    | cons c inner => simpa using hbody
  rw [hparent, Rooted.root_eq ⟨hrooted.slashes, hhead⟩]

end Path

namespace Files

/-- A file is held under one slash and the parts of its path. -/
theorem toList_place (path : String) :
    (place path).toList = '/' :: ['/'].intercalate (Path.partsOf path) := by
  have hbody := (Path.rooted_absolute path).body
  have htext := Path.toList_absolute path
  generalize ['/'].intercalate (Path.partsOf path) = body at hbody htext
  unfold place
  rcases Path.root_cases path.toList with hr | hr
  · rw [htext, hr]
    cases body with
    | nil => rfl
    | cons c body =>
      have hc : c ≠ '/' := by simpa using hbody
      simp [hc]
  · rw [htext, hr]
    simp

/-- The two absolute paths of a file. -/
theorem absolute_cases (path : String) :
    Path.absolute path = place path ∨ Path.absolute path = "/" ++ place path := by
  rcases Path.root_cases path.toList with hr | hr
  · left
    apply String.toList_injective
    rw [Path.toList_absolute, toList_place, hr]
    rfl
  · right
    apply String.toList_injective
    rw [Path.toList_absolute, String.toList_append, toList_place, hr]
    rfl

/-- The root tells the two apart. -/
theorem absolute_eq_of_place {first second : String} (hplace : place first = place second)
    (hroot : Path.root first.toList = Path.root second.toList) :
    Path.absolute first = Path.absolute second := by
  have hbody :
      ['/'].intercalate (Path.partsOf first) = ['/'].intercalate (Path.partsOf second) := by
    have htexts := congrArg String.toList hplace
    rw [toList_place, toList_place] at htexts
    exact List.tail_eq_of_cons_eq htexts
  apply String.toList_injective
  rw [Path.toList_absolute, Path.toList_absolute, hroot, hbody]

end Files

end PrefixScript
