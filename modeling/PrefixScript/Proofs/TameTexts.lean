import PrefixScript.Host
import PrefixScript.Proofs.NumberRoundTrip
import PrefixScript.Proofs.PathSpellings
import PrefixScript.Template

/-!
# Texts without control sequences

A control sequence starts with a character of its own. A text that does not have it is tame, and so
is what is made of tame texts: joined and reversed texts, texts in quotes, paths, and the texts of
numbers. What is written of a diagnostic is tame if its own texts are and the paths of the files.
-/
namespace PrefixScript

namespace Text

/-- The character that control sequences start with. -/
def lead : Char := '\x1b'

/-- A text has no control sequences. -/
def Tame (text : String) : Prop := lead ∉ text.toList

instance (text : String) : Decidable (Tame text) :=
  inferInstanceAs (Decidable (lead ∉ text.toList))

section Tame
variable {text first second : String} {chars : List Char}

@[simp] theorem tame_append : Tame (first ++ second) ↔ Tame first ∧ Tame second := by
  simp [Tame]

@[simp] theorem tame_ofList : Tame (String.ofList chars) ↔ lead ∉ chars := by
  rw [Tame, String.toList_ofList]

theorem Tame.of_subset (h : Tame text) (hs : chars ⊆ text.toList) : Tame (String.ofList chars) := by
  rw [tame_ofList]
  exact fun hm => h (hs hm)

theorem tame_join {texts : List String} (h : ∀ text ∈ texts, Tame text) :
    Tame (String.join texts) := by
  rw [Tame, String.toList_join]
  intro hm
  obtain ⟨text, ht, hm⟩ := List.mem_flatMap.1 hm
  exact h text ht hm

end Tame

/-! ## Numbers and quoted texts -/

theorem digitChar_ne_lead (n : Nat) : Nat.digitChar n ≠ lead := by
  by_cases hn : n < 16
  · have hdigits : ∀ n < 16, Nat.digitChar n ≠ lead := by decide
    exact hdigits n hn
  · have hstar : Nat.digitChar n = '*' := by
      unfold Nat.digitChar
      repeat rw [if_neg (by omega)]
    rw [hstar]
    decide

theorem lead_not_mem_toDigits {base : Nat} (hb : 1 < base) (n : Nat) :
    lead ∉ Nat.toDigits base n := by
  induction n using Nat.strongRecOn with
  | _ n ih =>
    rw [Nat.toDigits_eq_if hb]
    split
    · simpa using (digitChar_ne_lead n).symm
    · have hless : n / base < n := Nat.div_lt_self (by omega) hb
      rw [List.mem_append, not_or]
      exact ⟨ih _ hless, by simpa using (digitChar_ne_lead _).symm⟩

theorem tame_repr (n : Nat) : Tame n.repr := by
  rw [Nat.repr_eq_ofList_toDigits, tame_ofList]
  exact lead_not_mem_toDigits (by decide) n

theorem tame_decimal (x : Float) : Tame (Decimal.text x) := by
  have hfinite (rank : Nat) : lead ∉ Decimal.finiteText rank := by
    intro hm
    have hchar := Decimal.isNumberChar_finiteText rank lead hm
    revert hchar
    decide
  have hinf : lead ∉ ['i', 'n', 'f'] := by decide
  have hminus : lead ≠ '-' := by decide
  unfold Decimal.text
  dsimp only
  split
  · decide
  · rw [tame_ofList]
    split <;> split <;> simp [hfinite, hminus, hinf]

theorem lead_not_mem_hex (width n : Nat) : lead ∉ hex width n := by
  have hzero : lead ≠ '0' := by decide
  have hdigits := @lead_not_mem_toDigits 16 (by decide) n
  simp [hex, hzero, hdigits]

theorem lead_not_mem_quoteChar (quote : Char) {c : Char} (hc : c ≠ lead) :
    lead ∉ quoteChar quote c := by
  have hmarks : lead ∉ ['\\', 'n', 'r', 't', 'x', 'u', 'U'] := by decide
  simp only [List.mem_cons, List.not_mem_nil, or_false, not_or] at hmarks
  unfold quoteChar
  split_ifs
  all_goals simp [hmarks, hc.symm, lead_not_mem_hex]

theorem tame_quoted {text : String} (h : Tame text) : Tame (quoted text) := by
  have hinside (quote : Char) : lead ∉ text.toList.flatMap (quoteChar quote) := by
    intro hm
    obtain ⟨c, hc, hm⟩ := List.mem_flatMap.1 hm
    exact lead_not_mem_quoteChar quote (fun he => h (he ▸ hc)) hm
  have hquotes : lead ≠ '"' ∧ lead ≠ '\'' := by decide
  unfold quoted
  dsimp only
  rw [tame_ofList]
  split <;> simp [hinside, hquotes]

/-- What an escape stands for was in the text. -/
theorem mem_of_mem_resolve {escaped c : Char} {text acc : List Char}
    (h : c ∈ resolve escaped text acc) : c ∈ text ∨ c ∈ acc := by
  fun_induction resolve escaped text acc with
  | case1 acc => exact .inr (List.mem_reverse.1 h)
  | case2 acc rest ih => grind
  | case3 acc other rest hne ih => grind
  | case4 acc other rest hne ih => grind

theorem unescape_subset (text : List Char) : unescape text ⊆ text := by
  have hresolve (escaped : Char) (text : List Char) : resolve escaped text [] ⊆ text :=
    fun c hc => (mem_of_mem_resolve hc).resolve_right List.not_mem_nil
  exact fun c hc => hresolve '"' text (hresolve '\'' _ (hresolve '\\' _ hc))

theorem trim_subset (text : List Char) : trim text ⊆ text := by
  intro c hc
  rw [trim, List.mem_reverse] at hc
  have hc := List.dropWhile_subset _ hc
  rw [List.mem_reverse] at hc
  exact List.dropWhile_subset _ hc

end Text

/-! ## Paths -/

namespace Path
open Text (Tame lead)

section Parts
variable {text part : List Char} {parts stack : List (List Char)} {c : Char}

/-- The parts of a path have its characters. -/
theorem mem_of_mem_split (hp : part ∈ split text) (hc : c ∈ part) : c ∈ text := by
  fun_induction split text generalizing part with
  | case1 => simp_all
  | case2 rest ih => grind
  | case3 d rest hd hnil ih => grind
  | case4 d rest hd first parts hsplit ih => grind

theorem mem_of_mem_foldl_push (h : part ∈ parts.foldl push stack) :
    part ∈ parts ∨ part ∈ stack := by
  induction parts generalizing stack with
  | nil => exact .inr h
  | cons head rest ih =>
    rw [List.foldl_cons] at h
    rcases ih h with hrest | hstack
    · exact .inl (List.mem_cons_of_mem _ hrest)
    · unfold push at hstack
      split_ifs at hstack
      · exact .inr hstack
      · exact .inr (List.mem_of_mem_tail hstack)
      · rcases List.mem_cons.1 hstack with rfl | hstack
        · exact .inl List.mem_cons_self
        · exact .inr hstack

theorem not_mem_intercalate (hc : c ≠ '/') (h : ∀ part ∈ parts, c ∉ part) :
    c ∉ ['/'].intercalate parts := by
  induction parts with
  | nil => simp
  | cons part rest ih =>
    obtain ⟨hp, hrest⟩ := List.forall_mem_cons.1 h
    cases rest with
    | nil => rwa [List.intercalate_singleton]
    | cons next rest =>
      rw [List.intercalate_cons_cons]
      simp only [List.mem_append, List.mem_singleton, not_or]
      exact ⟨⟨hp, hc⟩, ih hrest⟩

end Parts

variable {path directory : String}

theorem tame_absolute (h : Tame path) : Tame (absolute path) := by
  have hslash : lead ≠ '/' := by decide
  have hroot : lead ∉ root path.toList := by
    rcases root_cases path.toList with hr | hr <;> simp [hr, hslash]
  have hparts : ∀ part ∈ partsOf path, lead ∉ part := by
    intro part hp hm
    have hpart := mem_of_mem_foldl_push (List.mem_reverse.1 hp)
    exact h (mem_of_mem_split (hpart.resolve_right List.not_mem_nil) hm)
  rw [Tame, toList_absolute, List.mem_append, not_or]
  exact ⟨hroot, not_mem_intercalate hslash hparts⟩

theorem tame_parent (h : Tame path) : Tame (parent path) := by
  have hback {p : Char → Bool} (text : List Char) :
      (text.reverse.dropWhile p).reverse ⊆ text := by
    intro c hc
    exact List.mem_reverse.1 (List.dropWhile_subset _ (List.mem_reverse.1 hc))
  unfold parent
  dsimp only
  split
  · exact h.of_subset (hback _)
  · exact h.of_subset fun c hc => hback _ (hback _ hc)

theorem tame_join (hd : Tame directory) (hp : Tame path) : Tame (join directory path) := by
  have hslash : Tame "/" := by decide
  unfold join
  split_ifs <;> simp [hd, hp, hslash]

end Path

/-! ## Values, nodes and tokens -/

/-- The text of a value has no control sequences. -/
def Value.Tame (value : Value) : Prop := Text.Tame value.render

namespace Value

instance (value : Value) : Decidable value.Tame := inferInstanceAs (Decidable (Text.Tame _))

theorem tame_none : none.Tame := by decide

theorem tame_bool (truth : Bool) : (bool truth).Tame := by cases truth <;> decide

theorem tame_number (x : Float) : (number x).Tame := Text.tame_decimal x

/-- The reason why a value is no number is a part of its text. -/
theorem tame_of_toNumber {value : Value} {text : String} (h : value.Tame)
    (he : value.toNumber = .error text) : Text.Tame text := by
  cases value with
  | none => cases he
  | bool truth => cases he
  | number x => cases he
  | text content =>
    simp only [toNumber] at he
    split at he <;> cases he
    exact Text.Tame.of_subset h (Text.trim_subset _)

end Value

/-- The texts of a node that values and messages are made of have no control sequences. -/
def Node.Tame : Node → Prop
  | literal value => value.Tame
  | lookup name | call name _ => Text.Tame name
  | math op _ _ | unary op _ | comparison op _ _ => Text.Tame op
  | unknown kind => Text.Tame kind
  | _ => True

theorem Node.tame_kindName {node : Node} (h : node.Tame) : Text.Tame node.kindName := by
  cases node
  case unknown kind => exact h
  all_goals rw [kindName]; decide

/-- The texts of a token have no control sequences. -/
structure Token.Tame (token : Token) : Prop where
  lexeme : Text.Tame token.lexeme
  kind : Text.Tame token.kind.name

/-! ## Diagnostics -/

/-- The text of a span has no control sequences, and is shown as it is. -/
def Span.Tame : Span → Prop
  | .plain text | .bold _ text => Text.Tame text
  | .fitted _ _ => False

/-- The texts of the spans have no control sequences, and no word is fitted. -/
def Styled.Tame (styled : Styled) : Prop := ∀ span ∈ styled, span.Tame

namespace Styled
variable {first second : Styled} {text : String}

@[simp] theorem tame_append : Tame (first ++ second) ↔ Tame first ∧ Tame second :=
  List.forall_mem_append

@[simp] theorem tame_nil : Tame [] := List.forall_mem_nil _

@[simp] theorem tame_plain : (plain text).Tame ↔ Text.Tame text := List.forall_mem_singleton

@[simp] theorem tame_bold : (bold text).Tame ↔ Text.Tame text := List.forall_mem_singleton

@[simp] theorem tame_inked {ink : Ink} : (inked ink text).Tame ↔ Text.Tame text :=
  List.forall_mem_singleton

end Styled

/-- What a report shows of a diagnostic has no control sequences of its own. -/
structure Diagnostic.Tame (d : Diagnostic) : Prop where
  message : d.message.Tame
  subject : Text.Tame d.subject

namespace Diagnostic

theorem tame_basic {category : Category} {message : Styled} {subject : String} {context : Context}
    (hm : message.Tame) (hs : Text.Tame subject) :
    (basic category message subject context).Tame :=
  ⟨hm, hs⟩

theorem Tame.excerpt {d : Diagnostic} (h : d.Tame) (excerpt : Bool) :
    ({ d with excerpt } : Diagnostic).Tame :=
  ⟨h.message, h.subject⟩

/-- The lines that point at the text at fault are made of its characters and of marks. -/
theorem tame_highlight {d : Diagnostic} (h : Text.Tame d.subject) (ink : Ink) :
    (d.highlight ink).Tame := by
  have hpart {part : List Char} (hs : part ⊆ d.subject.toList) : Text.lead ∉ part :=
    fun hm => h (hs hm)
  have hup (stop : Int) : Text.lead ∉ Text.upTo d.subject.toList stop :=
    hpart (List.take_subset _ _)
  have hslice (start stop : Int) : Text.lead ∉ Text.slice d.subject.toList start stop :=
    hpart fun c hc => List.take_subset _ _ (List.drop_subset _ _ hc)
  have honward (start : Int) : Text.lead ∉ Text.onward d.subject.toList start :=
    hpart (List.drop_subset _ _)
  have hmarks : Text.lead ∉ [' ', '^', '~'] := by decide
  have htexts : Text.Tame "  " ∧ Text.Tame "\n" ∧ Text.Tame "^" := by decide
  simp only [List.mem_cons, List.not_mem_nil, or_false, not_or] at hmarks
  simp [highlight, hup, hslice, honward, hmarks, htexts]

end Diagnostic

theorem Fault.tame_told {category : Category} {before subject after : String} {context : Context}
    (hb : Text.Tame before) (hs : Text.Tame subject) (ha : Text.Tame after) :
    (told category before subject after context).Tame :=
  Diagnostic.tame_basic (by simp [hb, hs, ha]) hs

/-- The texts that are told of a failure have no control sequences. -/
def Failure.Tame : Failure → Prop
  | fault cause => cause.diagnostic.Tame
  | defect cause => Text.Tame cause.name ∧ Text.Tame cause.text
  | tooDeep | unfinished | interrupted | exit _ => True

theorem Failure.tame_nullInPath : (defect .nullInPath).Tame := ⟨by decide, by decide⟩

theorem Failure.tame_tokensExhausted : (defect .tokensExhausted).Tame := ⟨by decide, by decide⟩

/-! ## Messages -/

namespace Template

/-- The text of a part has no control sequences. -/
def Part.Tame : Part → Prop
  | text content => Text.Tame content
  | slot _ _ => True

/-- A slot does not say how its word is fitted. -/
def Part.IsPlain : Part → Prop
  | slot _ (some _) => False
  | _ => True

instance (part : Part) : Decidable part.IsPlain :=
  match part with
  | .text _ | .slot _ none => .isTrue trivial
  | .slot _ (some _) => .isFalse id

theorem tame_readSlot {field : List Char} {part : Part} (h : readSlot field = some part) :
    part.Tame := by
  cases part with
  | slot => trivial
  | text content =>
    unfold readSlot at h
    dsimp only at h
    split at h <;> simp at h

theorem tame_readFrom {text plain : List Char} {slot : Option (List Char)} {parts : List Part}
    (ht : Text.lead ∉ text) (hp : Text.lead ∉ plain) (h : readFrom text slot plain = some parts) :
    ∀ part ∈ parts, part.Tame := by
  have hbraces : Text.lead ≠ '\x7b' ∧ Text.lead ≠ '\x7d' := by decide
  fun_induction readFrom text slot plain generalizing parts with
  | case1 plain =>
    cases h
    simpa [Part.Tame] using hp
  | case2 | case6 | case8 => cases h
  | case3 plain rest ih | case4 plain rest ih =>
    simp only [List.mem_cons, not_or] at ht
    exact ih ht.2.2 (by simp [hbraces, hp]) h
  | case5 plain rest _ ih =>
    obtain ⟨more, hmore, rfl⟩ := Option.map_eq_some_iff.1 h
    rw [List.mem_cons, not_or] at ht
    exact List.forall_mem_cons.2 ⟨by simpa [Part.Tame] using hp, ih ht.2 List.not_mem_nil hmore⟩
  | case7 plain c rest _ _ _ _ ih =>
    rw [List.mem_cons, not_or] at ht
    exact ih ht.2 (by simp [ht.1, hp]) h
  | case9 plain rest field ih =>
    obtain ⟨part, hpart, hrest⟩ := Option.bind_eq_some_iff.1 h
    obtain ⟨more, hmore, hparts⟩ := Option.bind_eq_some_iff.1 hrest
    cases hparts
    rw [List.mem_cons, not_or] at ht
    exact List.forall_mem_cons.2 ⟨tame_readSlot hpart, ih ht.2 List.not_mem_nil hmore⟩
  | case10 plain c rest field _ _ ih =>
    rw [List.mem_cons, not_or] at ht
    exact ih ht.2 hp h

/-- A message is tame, or what is told of it if it cannot be filled in. -/
def Filled.Tame : Except Defect Styled → Prop
  | .ok message => message.Tame
  | .error cause => (Failure.defect cause).Tame

theorem Filled.Tame.prepend {filled : Except Defect Styled} (h : Filled.Tame filled)
    {first : Styled} (hf : first.Tame) : Filled.Tame (do return first ++ (← filled)) := by
  cases filled with
  | ok message => exact Styled.tame_append.2 ⟨hf, h⟩
  | error cause => exact h

theorem tame_wordAt {words : List String} (hw : ∀ word ∈ words, Text.Tame word) {place : Nat} :
    (∀ word, wordAt words place = .ok word → Text.Tame word) ∧
      ∀ cause, wordAt words place = .error cause → (Failure.defect cause).Tame := by
  unfold wordAt
  cases hplace : words[place]? with
  | some word =>
    refine ⟨fun found he => ?_, fun cause he => by cases he⟩
    cases he
    exact hw word (List.mem_of_getElem? hplace)
  | none =>
    have htexts : Text.Tame "Replacement index " ∧
        Text.Tame " out of range for positional args tuple" := by decide
    refine ⟨fun found he => by (cases he), fun cause he => ?_⟩
    cases he
    exact ⟨(by decide : Text.Tame "IndexError"), by simp [htexts, Text.tame_repr]⟩

theorem Numbering.tame_place {numbering : Numbering} {place : Option Nat} {cause : Defect}
    (h : numbering.place place = .error cause) : (Failure.defect cause).Tame := by
  unfold Numbering.place at h
  split at h <;> cases h <;> exact ⟨by decide, by decide⟩

/-- Where no word is fitted, the message of tame parts and words is tame. -/
theorem tame_fillFrom {words : List String} {parts : List Part}
    (hw : ∀ word ∈ words, Text.Tame word) (ht : ∀ part ∈ parts, part.Tame)
    (hp : ∀ part ∈ parts, part.IsPlain) (numbering : Numbering) :
    Filled.Tame (fillFrom words numbering parts) := by
  induction parts generalizing numbering with
  | nil => exact Styled.tame_nil
  | cons part rest ih =>
    obtain ⟨htame, htames⟩ := List.forall_mem_cons.1 ht
    obtain ⟨hplain, hplains⟩ := List.forall_mem_cons.1 hp
    cases part with
    | text content => exact (ih htames hplains numbering).prepend (Styled.tame_plain.2 htame)
    | slot place fit =>
      rw [fillFrom]
      cases hplace : numbering.place place with
      | error cause => exact Numbering.tame_place hplace
      | ok found =>
        obtain ⟨place, numbering⟩ := found
        cases hword : wordAt words place with
        | error cause =>
          change Filled.Tame (wordAt words place >>= _)
          rw [hword]
          exact (tame_wordAt hw).2 cause hword
        | ok word =>
          have hset : (setWord word fit).Tame := by
            cases fit with
            | none => exact Styled.tame_bold.2 ((tame_wordAt hw).1 word hword)
            | some fit => exact hplain.elim
          change Filled.Tame (wordAt words place >>= _)
          rw [hword]
          exact (ih htames hplains numbering).prepend hset

end Template

/-- Neither the template nor the words have control sequences, and no word is fitted. -/
structure Wording.Tame (wording : Wording) : Prop where
  template : Text.Tame wording.template
  words : ∀ first rest, wording.words = .given first rest →
    ∀ word ∈ first :: rest, Text.Tame word
  plain : wording.words = .absent ∨
    ∀ part ∈ (Template.read wording.template).getD [], part.IsPlain

namespace Wording.Tame
variable {wording : Wording}

theorem message (h : wording.Tame) : Template.Filled.Tame wording.message := by
  obtain ⟨ht, hw, hp⟩ := h
  obtain ⟨template, words, hread⟩ := wording
  cases words with
  | absent => exact Styled.tame_plain.2 ht
  | given first rest =>
    have hplain := hp.resolve_left (by simp)
    obtain ⟨parts, hparts⟩ := Option.isSome_iff_exists.1 (hread.resolve_left (by simp))
    have htame := Template.tame_readFrom ht List.not_mem_nil hparts
    have hfill := Template.tame_fillFrom (hw first rest rfl) htame
      (by simpa only [hparts, Option.getD_some] using hplain) .undecided
    simpa only [Wording.message, hparts, Option.getD_some] using hfill

theorem subject (h : wording.Tame) : Text.Tame wording.subject := by
  unfold Wording.subject
  split
  · decide
  · rename_i first rest hwords
    exact h.words first rest hwords first List.mem_cons_self

end Wording.Tame

theorem Diagnostic.tame_worded {category : Category} {wording : Wording} {details : Details}
    (h : wording.Tame) :
    (∀ d, worded category wording details = .ok d → d.Tame) ∧
      ∀ cause, worded category wording details = .error cause → (Failure.defect cause).Tame := by
  have hmessage := h.message
  unfold worded
  cases hm : wording.message with
  | ok message =>
    rw [hm] at hmessage
    refine ⟨fun d hd => ?_, fun cause hc => by (cases hc)⟩
    cases hd
    exact ⟨hmessage, h.subject⟩
  | error cause =>
    rw [hm] at hmessage
    refine ⟨fun d hd => by (cases hd), fun other hc => ?_⟩
    cases hc
    exact hmessage

/-! ## Reports -/

namespace Host
variable {trace : List String} {d : Diagnostic}

theorem tame_location (h : ∀ path ∈ trace, Text.Tame path) : (location trace).Tame := by
  unfold location
  split
  · simp
  · rename_i path hlast
    have hpath := h path (List.mem_of_getLast? hlast)
    have hcolon : Text.Tame ": " := by decide
    simp [hpath, hcolon]

theorem tame_chain (h : ∀ path ∈ trace, Text.Tame path) : (chain trace).Tame := by
  have hlines : Text.Tame (String.join (trace.map fun path => "  File '" ++ path ++ "'\n")) := by
    refine Text.tame_join fun text ht => ?_
    obtain ⟨path, hp, rfl⟩ := List.mem_map.1 ht
    have hmarks : Text.Tame "  File '" ∧ Text.Tame "'\n" := by decide
    simp [h path hp, hmarks]
  have hhead : Text.Tame "Traceback:\n" := by decide
  unfold chain
  split
  · simp
  · simp [hlines, hhead]

theorem tame_excerpt (h : Text.Tame d.subject) (ink : Ink) : (excerpt d ink).Tame := by
  have hbreak : Text.Tame "\n" := by decide
  unfold excerpt
  split
  · simp [Diagnostic.tame_highlight h ink, hbreak]
  · simp

theorem tame_warning (h : ∀ path ∈ trace, Text.Tame path) (hd : d.Tame) :
    (warning trace d).Tame := by
  have hmarks : Text.Tame "warning: " ∧ Text.Tame "\n" := by decide
  simp [warning, tame_location h, hd.message, tame_excerpt hd.subject, hmarks]

theorem tame_report (h : ∀ path ∈ trace, Text.Tame path) (hd : d.Tame) :
    (report trace d).Tame := by
  have hmarks : Text.Tame "error: " ∧ Text.Tame "\n" := by decide
  have hinternal : (if d.internal then Styled.inked .red "[internal] " else []).Tame := by
    have hmark : Text.Tame "[internal] " := by decide
    split <;> simp [hmark]
  simp [report, tame_chain h, tame_location h, hinternal, hd.message, tame_excerpt hd.subject,
    hmarks]

end Host

end PrefixScript
