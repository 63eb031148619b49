import PrefixScript.Proofs.FirstToken
import PrefixScript.Proofs.Outcome

/-!
# What a parser reads

A parser takes tokens from the front of a list and leaves the rest, or it is refused at some place.
`Reads` states both: what the tokens that were taken stand for, and why the parser stopped. Neither
takes the ending token. Rules for sequences and repetitions follow the parser's own combinators.
-/
namespace PrefixScript.Parse

/-- Why a parser stopped after some tokens, with others left. What is said of the tokens if they are
nested too deeply is left open. -/
inductive Refused (deep : List Token → Prop) : Failure → List Token → List Token → Prop
  | unexpected {token used rest} (h : token.kind.opensExpression = false) :
    Refused deep (.fault (.unexpectedToken token)) used (token :: rest)
  | expected {kind token used rest} (h : token.kind ≠ kind) :
    Refused deep (.fault (.expectedToken kind token)) used (token :: rest)
  | exhausted {used} : Refused deep (.defect .tokensExhausted) used []
  | noNumber {token used rest} (hm : token ∈ used) (hk : token.kind = .number)
    (hv : Decimal.writtenValue? token.lexeme.toList = none) :
    Refused deep (.defect (.noNumber token.lexeme)) used rest
  | tooDeep {used rest} (h : deep used) : Refused deep .tooDeep used rest

theorem Refused.after {deep other : List Token → Prop} {failure : Failure} {used rest : List Token}
    (h : Refused deep failure used rest) (first : List Token)
    (hd : deep used → other (first ++ used)) : Refused other failure (first ++ used) rest := by
  cases h with
  | unexpected h => exact .unexpected h
  | expected h => exact .expected h
  | exhausted => exact .exhausted
  | noNumber hm hk hv => exact .noNumber (List.mem_append_right first hm) hk hv
  | tooDeep h => exact .tooDeep (hd h)

/-- A syntax error that is put down to the next token. -/
def BlamesNext (fault : Fault) (rest : List Token) : Prop :=
  fault.diagnostic.category = .syntactic ∧
    ∃ token more, rest = token :: more ∧ fault.diagnostic.context = .token token

/-- Every syntax error is put down to the next token. -/
theorem Refused.blamesNext {deep : List Token → Prop} {fault : Fault} {used rest : List Token}
    (h : Refused deep (.fault fault) used rest) : BlamesNext fault rest := by
  cases h with
  | unexpected => exact ⟨rfl, _, _, rfl, rfl⟩
  | expected => exact ⟨rfl, _, _, rfl, rfl⟩

/-- A parser with tokens left is refused for a syntax error at the next one, for a number that is
none, or for the nesting. -/
theorem Refused.causes {deep : List Token → Prop} {failure : Failure} {used rest : List Token}
    (h : Refused deep failure used rest) (hr : rest ≠ []) :
    (∃ fault, failure = .fault fault ∧ BlamesNext fault rest) ∨
      (∃ token ∈ used, token.kind = .number ∧
        Decimal.writtenValue? token.lexeme.toList = none) ∨
      failure = .tooDeep := by
  cases failure with
  | fault fault => exact .inl ⟨fault, rfl, h.blamesNext⟩
  | defect defect =>
    cases h with
    | exhausted => exact absurd rfl hr
    | noNumber hm hk hv => exact .inr (.inl ⟨_, hm, hk, hv⟩)
  | tooDeep => exact .inr (.inr rfl)
  | unfinished | interrupted | exit => cases h

/-- Some tokens were taken, none of them the ending one, and the rest is left. -/
def Taken (used rest tokens : List Token) : Prop :=
  tokens = used ++ rest ∧ ∀ token ∈ used, token.kind ≠ .ending

theorem Taken.nil (tokens : List Token) : Taken [] tokens tokens := ⟨rfl, by simp⟩

theorem Taken.append {first more used rest tokens : List Token} (h : Taken first more tokens)
    (k : Taken used rest more) : Taken (first ++ used) rest tokens := by
  refine ⟨by rw [h.1, k.1, List.append_assoc], fun token ht => ?_⟩
  rcases List.mem_append.1 ht with ht | ht
  · exact h.2 token ht
  · exact k.2 token ht

theorem Taken.length_le {used rest tokens : List Token} (h : Taken used rest tokens) :
    rest.length ≤ tokens.length := by
  rw [h.1, List.length_append]
  omega

section Reads
variable {α β : Type} {deep other : List Token → Prop} {tokens : List Token}

/-- From some tokens a parser reads a result, of which `S` holds together with the tokens that were
taken and those left, or it is refused. -/
def Reads (deep : List Token → Prop) (parser : ParseM α) (S : α → List Token → List Token → Prop)
    (tokens : List Token) : Prop :=
  Ends parser tokens (fun a rest => ∃ used, Taken used rest tokens ∧ S a used rest)
    (fun failure rest => ∃ used, Taken used rest tokens ∧ Refused deep failure used rest)

variable {parser : ParseM α} {S T : α → List Token → List Token → Prop}

theorem Reads.mono (h : Reads deep parser S tokens) (hd : ∀ used, deep used → other used)
    (hS : ∀ a used rest, Taken used rest tokens → S a used rest → T a used rest) :
    Reads other parser T tokens := by
  refine Ends.mono h ?_ ?_
  · rintro a rest ⟨used, ht, hs⟩
    exact ⟨used, ht, hS a used rest ht hs⟩
  · rintro failure rest ⟨used, ht, hr⟩
    exact ⟨used, ht, hr.after [] (hd used)⟩

theorem Reads.pure {a : α} (h : S a [] tokens) : Reads deep (pure a) S tokens :=
  ⟨[], .nil tokens, h⟩

/-- What is read first is part of what is read in all. -/
theorem Reads.bind {next : α → ParseM β} {T : β → List Token → List Token → Prop}
    (h : Reads deep parser S tokens) (hd : ∀ used, deep used → other used)
    (hn : ∀ a first more, Taken first more tokens → S a first more →
      Reads (fun used => other (first ++ used)) (next a)
        (fun b used rest => T b (first ++ used) rest) more) :
    Reads other (parser >>= next) T tokens := by
  unfold Reads
  rw [ends_bind]
  refine Ends.mono (h.mono hd fun _ _ _ _ hs => hs) ?_ (fun _ _ hr => hr)
  rintro a more ⟨first, ht, hs⟩
  refine Ends.mono (hn a first more ht hs) ?_ ?_
  · rintro b rest ⟨used, hu, hT⟩
    exact ⟨first ++ used, ht.append hu, hT⟩
  · rintro failure rest ⟨used, hu, hr⟩
    exact ⟨first ++ used, ht.append hu, hr.after first id⟩

theorem Reads.map {f : α → β} {T : β → List Token → List Token → Prop}
    (h : Reads deep parser (fun a used rest => T (f a) used rest) tokens) :
    Reads deep (do let a ← parser; return f a) T tokens := by
  unfold Reads
  rw [ends_bind]
  exact h

/-- A parser that moves past its first token goes on as another one. -/
theorem Reads.step {token : Token} {rest : List Token} {next : ParseM α}
    (he : parser (token :: rest) = next rest) (hk : token.kind ≠ .ending)
    (h : Reads (fun used => deep (token :: used)) next (fun a used left => S a (token :: used) left)
      rest) :
    Reads deep parser S (token :: rest) := by
  have ht : Taken [token] rest (token :: rest) := ⟨rfl, by simpa using hk⟩
  unfold Reads Ends at *
  rw [he]
  split at h
  · obtain ⟨used, hu, hs⟩ := h
    exact ⟨token :: used, ht.append hu, hs⟩
  · obtain ⟨used, hu, hr⟩ := h
    exact ⟨token :: used, ht.append hu, hr.after [token] id⟩

theorem Reads.congr {second : ParseM α} (he : parser tokens = second tokens)
    (h : Reads deep second S tokens) : Reads deep parser S tokens := by
  unfold Reads Ends at *
  rw [he]
  exact h

theorem Reads.refused {failure : Failure} {used rest : List Token}
    (he : parser tokens = .error failure rest) (ht : Taken used rest tokens)
    (h : Refused deep failure used rest) : Reads deep parser S tokens := by
  unfold Reads Ends
  rw [he]
  exact ⟨used, ht, h⟩

/-- Looking at the next token takes none. -/
theorem reads_peek {next : Token → ParseM α}
    (h : ∀ token rest, tokens = token :: rest → Reads deep (next token) S tokens) :
    Reads deep (peek >>= next) S tokens := by
  cases tokens with
  | nil => exact ⟨[], .nil [], .exhausted⟩
  | cons token rest => exact h token rest rfl

/-- A token of a given kind, and then what comes next. -/
theorem reads_consume {kind : Kind} (hk : kind ≠ .ending) {next : Token → ParseM α}
    (h : ∀ token rest, tokens = token :: rest → token.kind = kind →
      Reads (fun used => deep (token :: used)) (next token)
        (fun a used left => S a (token :: used) left) rest) :
    Reads deep (consume kind >>= next) S tokens := by
  cases tokens with
  | nil => exact ⟨[], .nil [], .exhausted⟩
  | cons token rest =>
    by_cases ht : token.kind = kind
    · have he : (consume kind >>= next) (token :: rest) = next token rest :=
        bind_of_ok (consume_of_kind ht)
      exact .step he (ht ▸ hk) (h token rest rfl ht)
    · exact .refused (bind_of_error (consume_of_ne ht)) (.nil _) (.expected ht)

/-- The items of a list are read one after the other. Each item is of the phrases `Q` and the list
of the phrases `P`, which are put together item by item. -/
theorem reads_repeated {Q : α → List Token → Prop} {P : List α → List Token → Prop} (hnil : P [] [])
    (hcons : ∀ {a as first more}, Q a first → P as more → P (a :: as) (first ++ more))
    (hdeep : ∀ first {used}, deep used → deep (first ++ used))
    (hitem : ∀ tokens, Reads deep parser (fun a used _ => Q a used) tokens) (count : Nat)
    (before : List α) (tokens : List Token) :
    Reads deep (repeated parser count before)
      (fun all used _ => ∃ as, all = before.reverse ++ as ∧ as.length = count ∧ P as used)
      tokens := by
  induction count generalizing before tokens with
  | zero => exact .pure ⟨[], by simp, rfl, hnil⟩
  | succ count ih =>
    refine (hitem tokens).bind (fun _ => id) fun a first more _ ha => ?_
    refine (ih (a :: before) more).mono (fun _ => hdeep first) ?_
    rintro all used _ _ ⟨as, rfl, rfl, has⟩
    exact ⟨a :: as, by simp, rfl, hcons ha has⟩

/-- Items up to a stop. The rounds are enough because every item takes a token: when they are used
up, so are the tokens. -/
theorem reads_upTo {Q : α → List Token → Prop} {P : List α → List Token → Prop} (stop : Kind)
    (hnil : P [] [])
    (hcons : ∀ {a as first more}, Q a first → P as more → P (a :: as) (first ++ more))
    (hne : ∀ {a}, ¬ Q a []) (hdeep : ∀ first {used}, deep used → deep (first ++ used))
    (limit : Nat)
    (hitem : ∀ tokens, tokens.length ≤ limit → Reads deep parser (fun a used _ => Q a used) tokens)
    (rounds : Nat) (before : List α) (tokens : List Token) (hr : tokens.length ≤ rounds)
    (hl : tokens.length ≤ limit) :
    Reads deep (upTo stop parser rounds before)
      (fun all used rest => (∃ as, all = before.reverse ++ as ∧ P as used) ∧
        ∃ token more, rest = token :: more ∧ token.kind = stop) tokens := by
  induction rounds generalizing before tokens with
  | zero =>
    have he : tokens = [] := List.length_eq_zero_iff.1 (by omega)
    subst he
    exact ⟨[], .nil [], .exhausted⟩
  | succ rounds ih =>
    refine reads_peek fun token rest he => ?_
    split
    · rename_i hk
      exact .pure ⟨⟨[], by simp, hnil⟩, token, rest, he, hk⟩
    · refine (hitem tokens hl).bind (fun _ => id) fun a first more ht ha => ?_
      have hpos : first ≠ [] := fun hf => hne (hf ▸ ha)
      have hlen : 0 < first.length := List.length_pos_iff.2 hpos
      have hsum : tokens.length = first.length + more.length := by rw [ht.1, List.length_append]
      refine (ih (a :: before) more (by omega) (by omega)).mono (fun _ => hdeep first) ?_
      rintro all used left _ ⟨⟨as, rfl, has⟩, hleft⟩
      exact ⟨⟨a :: as, by simp, hcons ha has⟩, hleft⟩

end Reads

end PrefixScript.Parse
