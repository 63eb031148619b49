import PrefixScript.Proofs.Languages
import PrefixScript.Text.Escape

/-!
# Escapes are resolved run by run

Resolving the three escapes one after the other comes to the same as one scan that resolves all of
them. This is not plain from the passes: an earlier one may resolve a quote behind a backslash that
is itself escaped, which the scan never does. But what becomes of a run of backslashes depends on
its length and on the character behind it alone, in the passes as in the scan. Half of them are left
in front of a quote, and in front of anything else half of them, rounded up. So a text in which each
backslash and each quote of one kind is escaped stands for itself.
-/
namespace PrefixScript.Text
open Computability

/-! ## Runs of backslashes -/

/-- A text is a run of backslashes, or such a run is ended by another character. -/
theorem backslashes_cases (text : List Char) :
    (∃ count, text = List.replicate count '\\') ∨
      ∃ count c rest, c ≠ '\\' ∧ text = List.replicate count '\\' ++ c :: rest := by
  have hrun {run : List Char} (h : ∀ d ∈ run, (d == '\\') = true) :
      run = List.replicate run.length '\\' :=
    List.eq_replicate_iff.2 ⟨rfl, fun d hd => beq_iff_eq.1 (h d hd)⟩
  rcases run_or_split (· == '\\') text with hall | ⟨run, c, rest, hall, hc, rfl⟩
  · exact .inl ⟨_, hrun hall⟩
  · exact .inr ⟨run.length, c, rest, by simpa using hc, by rw [← hrun hall]⟩

/-- What holds of runs of backslashes, and holds of a text if it holds behind its first run and the
character that ends the run, holds of every text. -/
theorem backslashes_induction {motive : List Char → Prop}
    (run : ∀ count, motive (List.replicate count '\\'))
    (split : ∀ count c rest, c ≠ '\\' → motive rest →
      motive (List.replicate count '\\' ++ c :: rest))
    (text : List Char) : motive text := by
  induction hn : text.length using Nat.strongRecOn generalizing text with
  | _ n ih =>
    rcases backslashes_cases text with ⟨count, rfl⟩ | ⟨count, c, rest, hc, rfl⟩
    · exact run count
    · have hless : rest.length < n := by
        rw [← hn, List.length_append, List.length_cons]
        omega
      exact split count c rest hc (ih _ hless rest rfl)

section Resolve
variable {escaped c : Char}

theorem resolve_other (hc : c ≠ '\\') (rest acc : List Char) :
    resolve escaped (c :: rest) acc = resolve escaped rest (c :: acc) := by
  rw [resolve]
  exact fun d more h => absurd h hc

theorem resolve_escaped (escaped : Char) (rest acc : List Char) :
    resolve escaped ('\\' :: escaped :: rest) acc = resolve escaped rest (escaped :: acc) := by
  rw [resolve, if_pos rfl]

theorem resolve_unescaped (h : c ≠ escaped) (rest acc : List Char) :
    resolve escaped ('\\' :: c :: rest) acc = resolve escaped (c :: rest) ('\\' :: acc) := by
  rw [resolve, if_neg h]

/-- What was found before stays in front. -/
theorem resolve_append (text acc front : List Char) :
    resolve escaped text (acc ++ front) = front.reverse ++ resolve escaped text acc := by
  fun_induction resolve escaped text acc with
  | case1 acc => simp [resolve]
  | case2 acc rest ih => rw [resolve_escaped, ← ih, List.cons_append]
  | case3 acc c rest hc ih => rw [resolve_unescaped hc, ← ih, List.cons_append]
  | case4 acc c rest hlast ih =>
    rw [← ih, List.cons_append]
    by_cases hc : c = '\\'
    · cases rest with
      | nil => simp [hc, resolve]
      | cons d more => exact absurd rfl (hlast d more hc)
    · rw [resolve_other hc]

/-- The text in which one escape is resolved. -/
def resolved (escaped : Char) (text : List Char) : List Char := resolve escaped text []

theorem unescape_eq (text : List Char) :
    unescape text = resolved '\\' (resolved '\'' (resolved '"' text)) := rfl

theorem resolved_cons_other (hc : c ≠ '\\') (rest : List Char) :
    resolved escaped (c :: rest) = c :: resolved escaped rest := by
  rw [resolved, resolve_other hc]
  exact resolve_append rest [] [c]

theorem resolved_cons_escaped (escaped : Char) (rest : List Char) :
    resolved escaped ('\\' :: escaped :: rest) = escaped :: resolved escaped rest := by
  rw [resolved, resolve_escaped]
  exact resolve_append rest [] [escaped]

theorem resolved_cons_unescaped (h : c ≠ escaped) (rest : List Char) :
    resolved escaped ('\\' :: c :: rest) = '\\' :: resolved escaped (c :: rest) := by
  rw [resolved, resolve_unescaped h]
  exact resolve_append (c :: rest) [] ['\\']

/-- A pass for a quote takes a backslash from a run that this quote ends. -/
theorem resolved_run (hne : escaped ≠ '\\') (count : Nat) (hc : c ≠ '\\') (rest : List Char) :
    resolved escaped (List.replicate count '\\' ++ c :: rest) =
      List.replicate (if c = escaped then count - 1 else count) '\\' ++
        c :: resolved escaped rest := by
  induction count with
  | zero => simp [resolved_cons_other hc]
  | succ count ih =>
    cases count with
    | zero =>
      by_cases he : c = escaped
      · simp [he, resolved_cons_escaped]
      · simp [he, resolved_cons_unescaped he, resolved_cons_other hc]
    | succ count =>
      have hstep : resolved escaped (List.replicate (count + 2) '\\' ++ c :: rest) =
          '\\' :: resolved escaped (List.replicate (count + 1) '\\' ++ c :: rest) :=
        resolved_cons_unescaped hne.symm _
      rw [hstep, ih]
      by_cases he : c = escaped
      · simp [he, List.replicate_succ]
      · simp [he, List.replicate_succ]

/-- The pass for the backslash halves each run. -/
theorem resolved_backslash_run (count : Nat) (hc : c ≠ '\\') (rest : List Char) :
    resolved '\\' (List.replicate count '\\' ++ c :: rest) =
      List.replicate ((count + 1) / 2) '\\' ++ c :: resolved '\\' rest := by
  induction count using Nat.twoStepInduction with
  | zero => simp [resolved_cons_other hc]
  | one => simp [resolved_cons_unescaped hc, resolved_cons_other hc]
  | more count ih _ =>
    have hhalf : (count + 2 + 1) / 2 = (count + 1) / 2 + 1 := by omega
    have hstep : resolved '\\' (List.replicate (count + 2) '\\' ++ c :: rest) =
        '\\' :: resolved '\\' (List.replicate count '\\' ++ c :: rest) :=
      resolved_cons_escaped '\\' _
    rw [hstep, ih, hhalf, List.replicate_succ, List.cons_append]

theorem resolved_replicate (hne : escaped ≠ '\\') (count : Nat) :
    resolved escaped (List.replicate count '\\') = List.replicate count '\\' := by
  induction count with
  | zero => rfl
  | succ count ih =>
    cases count with
    | zero => rfl
    | succ count =>
      have hstep : resolved escaped (List.replicate (count + 2) '\\') =
          '\\' :: resolved escaped (List.replicate (count + 1) '\\') :=
        resolved_cons_unescaped hne.symm _
      rw [hstep, ih, List.replicate_succ (n := count + 1)]

theorem resolved_backslash_replicate (count : Nat) :
    resolved '\\' (List.replicate count '\\') = List.replicate ((count + 1) / 2) '\\' := by
  induction count using Nat.twoStepInduction with
  | zero | one => rfl
  | more count ih _ =>
    have hhalf : (count + 2 + 1) / 2 = (count + 1) / 2 + 1 := by omega
    have hstep : resolved '\\' (List.replicate (count + 2) '\\') =
        '\\' :: resolved '\\' (List.replicate count '\\') := resolved_cons_escaped '\\' _
    rw [hstep, ih, hhalf, List.replicate_succ]

/-- What becomes of a run of backslashes in front of a character. -/
theorem unescape_run (count : Nat) (hc : c ≠ '\\') (rest : List Char) :
    unescape (List.replicate count '\\' ++ c :: rest) =
      List.replicate (if c = '"' ∨ c = '\'' then count / 2 else (count + 1) / 2) '\\' ++
        c :: unescape rest := by
  rw [unescape_eq, resolved_run (by decide) _ hc, resolved_run (by decide) _ hc,
    resolved_backslash_run _ hc, ← unescape_eq]
  by_cases hd : c = '"'
  · have hhalf : (count - 1 + 1) / 2 = count / 2 := by omega
    simp [hd, hhalf]
  · by_cases hs : c = '\''
    · have hhalf : (count - 1 + 1) / 2 = count / 2 := by omega
      simp [hs, hhalf]
    · simp [hd, hs]

theorem unescape_replicate (count : Nat) :
    unescape (List.replicate count '\\') = List.replicate ((count + 1) / 2) '\\' := by
  rw [unescape_eq, resolved_replicate (by decide), resolved_replicate (by decide),
    resolved_backslash_replicate]

end Resolve

/-! ## One scan -/

/-- Resolves all escapes from left to right: a backslash in front of a quote or a backslash is
dropped, the character behind it is kept and not looked at again, and everything else stays. -/
def scanEscapes : List Char → List Char
  | [] => []
  | '\\' :: c :: rest =>
    if c = '"' ∨ c = '\'' ∨ c = '\\' then c :: scanEscapes rest
    else '\\' :: scanEscapes (c :: rest)
  | c :: rest => c :: scanEscapes rest

section Scan
variable {c : Char}

theorem scanEscapes_other (hc : c ≠ '\\') (rest : List Char) :
    scanEscapes (c :: rest) = c :: scanEscapes rest := by
  rw [scanEscapes]
  exact fun d more h => absurd h hc

theorem scanEscapes_escaped (hc : c = '"' ∨ c = '\'' ∨ c = '\\') (rest : List Char) :
    scanEscapes ('\\' :: c :: rest) = c :: scanEscapes rest := by
  rw [scanEscapes, if_pos hc]

/-- The scan takes the backslashes of a run two at a time. An odd one at the end is dropped in front
of a quote only. -/
theorem scanEscapes_run (count : Nat) (hc : c ≠ '\\') (rest : List Char) :
    scanEscapes (List.replicate count '\\' ++ c :: rest) =
      List.replicate (if c = '"' ∨ c = '\'' then count / 2 else (count + 1) / 2) '\\' ++
        c :: scanEscapes rest := by
  induction count using Nat.twoStepInduction with
  | zero => simp [scanEscapes_other hc]
  | one =>
    by_cases hq : c = '"' ∨ c = '\''
    · have hescaped : scanEscapes ('\\' :: c :: rest) = c :: scanEscapes rest :=
        scanEscapes_escaped (by tauto) rest
      simpa [hq] using hescaped
    · have hkept : scanEscapes ('\\' :: c :: rest) = '\\' :: scanEscapes (c :: rest) := by
        rw [scanEscapes, if_neg (by tauto)]
      simpa [hq, scanEscapes_other hc] using hkept
  | more count ih _ =>
    have hstep : scanEscapes (List.replicate (count + 2) '\\' ++ c :: rest) =
        '\\' :: scanEscapes (List.replicate count '\\' ++ c :: rest) :=
      scanEscapes_escaped (.inr (.inr rfl)) _
    rw [hstep, ih]
    by_cases hq : c = '"' ∨ c = '\''
    · have hhalf : (count + 2) / 2 = count / 2 + 1 := by omega
      rw [if_pos hq, if_pos hq, hhalf, List.replicate_succ, List.cons_append]
    · have hhalf : (count + 2 + 1) / 2 = (count + 1) / 2 + 1 := by omega
      rw [if_neg hq, if_neg hq, hhalf, List.replicate_succ, List.cons_append]

theorem scanEscapes_replicate (count : Nat) :
    scanEscapes (List.replicate count '\\') = List.replicate ((count + 1) / 2) '\\' := by
  induction count using Nat.twoStepInduction with
  | zero | one => rfl
  | more count ih _ =>
    have hhalf : (count + 2 + 1) / 2 = (count + 1) / 2 + 1 := by omega
    have hstep : scanEscapes (List.replicate (count + 2) '\\') =
        '\\' :: scanEscapes (List.replicate count '\\') := scanEscapes_escaped (.inr (.inr rfl)) _
    rw [hstep, ih, hhalf, List.replicate_succ]

end Scan

/-- The three passes do what one scan from left to right does, on every text. The induction goes
from run to run of backslashes, because the passes and the scan do not agree on parts of a run. -/
theorem unescape_eq_scanEscapes (text : List Char) : unescape text = scanEscapes text := by
  induction text using backslashes_induction with
  | run count => rw [unescape_replicate, scanEscapes_replicate]
  | split count c rest hc ih => rw [unescape_run count hc, scanEscapes_run count hc, ih]

/-- Three backslashes in front of a quote, and two in front of a letter. -/
example : unescape "\\\\\\\"\\\\a".toList = "\\\"\\a".toList := by decide

/-! ## Escaping -/

/-- A character inside of quotes of a kind: the backslash and the quote are escaped. -/
def escapeCharIn (quote c : Char) : List Char := if c = '\\' ∨ c = quote then ['\\', c] else [c]

/-- The inside of a literal in quotes of a kind that stands for a text. -/
def escapeIn (quote : Char) (text : List Char) : List Char := text.flatMap (escapeCharIn quote)

section EscapeIn
variable {quote : Char}

theorem escapeIn_mem_insideQuotes (hq : quote ≠ '\n') (text : List Char) :
    escapeIn quote text ∈ (insideQuotes quote)∗ := by
  refine ⟨text.map (escapeCharIn quote), List.flatMap_def, fun part hm => ?_⟩
  obtain ⟨c, -, rfl⟩ := List.mem_map.1 hm
  by_cases hc : c = '\\' ∨ c = quote
  · have hfeed : c ≠ '\n' := by
      rintro rfl
      rcases hc with hc | hc
      · cases hc
      · exact hq hc.symm
    have hmem : ['\\'] ++ [c] ∈ {['\\']} * oneOf (· != '\n') :=
      Language.append_mem_mul rfl (singleton_mem_oneOf (by simpa using hfeed))
    rw [escapeCharIn, if_pos hc]
    exact .inr hmem
  · rw [escapeCharIn, if_neg hc]
    rw [not_or] at hc
    exact .inl (singleton_mem_oneOf (by simp [hc]))

theorem escapeIn_replicate (quote : Char) (count : Nat) :
    escapeIn quote (List.replicate count '\\') = List.replicate (2 * count) '\\' := by
  induction count with
  | zero => rfl
  | succ count ih =>
    have hstep : escapeIn quote (List.replicate (count + 1) '\\') =
        '\\' :: '\\' :: escapeIn quote (List.replicate count '\\') := by
      rw [List.replicate_succ, escapeIn, List.flatMap_cons, escapeCharIn, if_pos (.inl rfl)]
      rfl
    rw [hstep, ih, Nat.mul_succ, List.replicate_succ, List.replicate_succ]

/-- What is escaped stands for itself. A quote of the other kind is not escaped, and in front of it
half of the doubled backslashes are left as well. -/
theorem unescape_escapeIn (hq : quote = '"' ∨ quote = '\'') (text : List Char) :
    unescape (escapeIn quote text) = text := by
  induction text using backslashes_induction with
  | run count =>
    have hhalf : (2 * count + 1) / 2 = count := by omega
    rw [escapeIn_replicate, unescape_replicate, hhalf]
  | split count c rest hc ih =>
    have hsplit : escapeIn quote (List.replicate count '\\' ++ c :: rest) =
        List.replicate (2 * count) '\\' ++ (escapeCharIn quote c ++ escapeIn quote rest) := by
      rw [← escapeIn_replicate quote, escapeIn, List.flatMap_append]
      rfl
    have hhalf : (2 * count + 1) / 2 = count := by omega
    rw [hsplit]
    by_cases hs : c = quote
    · have hrun : List.replicate (2 * count) '\\' ++ (escapeCharIn quote c ++ escapeIn quote rest) =
          List.replicate (2 * count + 1) '\\' ++ c :: escapeIn quote rest := by
        rw [List.replicate_succ', List.append_assoc, escapeCharIn, if_pos (.inr hs)]
        rfl
      rw [hrun, unescape_run _ hc, if_pos (hs ▸ hq), hhalf, ih]
    · have hplain : escapeCharIn quote c = [c] := by simp [escapeCharIn, hc, hs]
      have heven : 2 * count / 2 = count := by omega
      rw [hplain, List.singleton_append, unescape_run _ hc, ih, hhalf, heven, ite_self]

end EscapeIn

end PrefixScript.Text
