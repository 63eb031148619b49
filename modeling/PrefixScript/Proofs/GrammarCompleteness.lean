import PrefixScript.Proofs.GrammarSoundness

/-!
# What is written as the grammar says is accepted

In front of anything that may follow it, a derived phrase is read as its tree, unless it is nested
too deeply. `Accepts` states this for the parser of a phrase, and its rules follow the parser's
combinators.
-/
namespace PrefixScript.Parse

section Accepts
variable {α β : Type} {parser : ParseM α} {a : α} {used rest : List Token}

/-- In front of the rest a parser takes some tokens for a result, or it finds them nested too
deeply. -/
def Accepts (parser : ParseM α) (a : α) (used rest : List Token) : Prop :=
  Ends parser (used ++ rest) (fun b left => b = a ∧ left = rest) fun failure _ => failure = .tooDeep

theorem Accepts.pure : Accepts (pure a) a [] rest := ⟨rfl, rfl⟩

theorem Accepts.tooDeep : Accepts (throw .tooDeep) a used rest :=
  (rfl : Failure.tooDeep = .tooDeep)

theorem Accepts.congr {other : ParseM α} (he : parser (used ++ rest) = other (used ++ rest))
    (h : Accepts other a used rest) : Accepts parser a used rest := by
  unfold Accepts Ends at *
  rwa [he]

theorem Accepts.bind {next : α → ParseM β} {b : β} {first second : List Token}
    (h : Accepts parser a first (second ++ rest)) (k : Accepts (next a) b second rest) :
    Accepts (parser >>= next) b (first ++ second) rest := by
  unfold Accepts
  rw [List.append_assoc, ends_bind]
  refine Ends.mono h ?_ fun _ _ => id
  rintro _ _ ⟨rfl, rfl⟩
  exact k

theorem Accepts.map {f : α → β} (h : Accepts parser a used rest) :
    Accepts (do let a ← parser; return f a) (f a) used rest := by
  unfold Accepts
  rw [ends_bind]
  refine Ends.mono h ?_ fun _ _ => id
  rintro _ _ ⟨rfl, rfl⟩
  exact ⟨rfl, rfl⟩

/-- A parser that moves past its first token accepts what the parser it goes on as accepts. -/
theorem Accepts.step {token : Token} {next : ParseM α}
    (he : parser (token :: (used ++ rest)) = next (used ++ rest))
    (h : Accepts next a used rest) : Accepts parser a (token :: used) rest := by
  unfold Accepts Ends at *
  rwa [List.cons_append, he]

theorem Accepts.consume {kind : Kind} {token : Token} {next : Token → ParseM α}
    (hk : token.kind = kind) (h : Accepts (next token) a used rest) :
    Accepts (consume kind >>= next) a (token :: used) rest :=
  .step (bind_of_ok (consume_of_kind hk)) h

/-- The next token is known from the phrase, or from what follows an empty one. -/
theorem Accepts.peek {token : Token} {more : List Token} {next : Token → ParseM α}
    (he : used ++ rest = token :: more) (h : Accepts (next token) a used rest) :
    Accepts (peek >>= next) a used rest := by
  refine .congr ?_ h
  rw [he]
  rfl

/-- One more item of a list, before the stop. -/
theorem Accepts.upTo_item {stop : Kind} {rounds : Nat} {before as : List α}
    {first more : List Token} {token : Token} (hf : first ++ (more ++ rest) = token :: used)
    (hne : token.kind ≠ stop) (h : Accepts parser a first (more ++ rest))
    (hm : Accepts (upTo stop parser rounds (a :: before)) ((a :: before).reverse ++ as) more rest) :
    Accepts (upTo stop parser (rounds + 1) before) (before.reverse ++ a :: as) (first ++ more)
      rest := by
  have hall : Accepts (parser >>= fun next => upTo stop parser rounds (next :: before))
      ((a :: before).reverse ++ as) (first ++ more) rest := h.bind hm
  rw [List.reverse_cons, List.append_assoc] at hall
  refine .peek (by rw [List.append_assoc, hf]) ?_
  rwa [if_neg hne]

/-- No item is left before the stop. -/
theorem Accepts.upTo_stop {token : Token} {rounds : Nat} {before : List α} :
    Accepts (upTo token.kind parser (rounds + 1) before) (before.reverse ++ []) []
      (token :: rest) := by
  refine .peek rfl ?_
  rw [if_pos rfl, List.append_nil]
  exact .pure

end Accepts

section Phrases
variable {arities : Arities} {token : Token} {used first second third rest : List Token}
  {rounds depth : Nat}

/-- What the parser makes of a phrase. Rounds are enough if there are as many as tokens, and for a
list one more, which finds the stop. -/
def PhraseAccepted (arities : Arities) : Phrase → List Token → Prop
  | .expression node, used => ∀ depth rest, Accepts (expression arities depth) node used rest
  | .expressions nodes, used => ∀ depth before rest,
    Accepts (repeated (expression arities depth) nodes.length before) (before.reverse ++ nodes) used
      rest
  | .statement dangling node, used => ∀ rounds depth rest, used.length ≤ rounds →
    Follows dangling rest → Accepts (statement arities rounds depth) node used rest
  | .statements nodes, used => ∀ rounds depth budget before stop rest, used.length ≤ rounds →
    used.length < budget → stop.kind = .rightBrace ∨ stop.kind = .ending →
      Accepts (upTo stop.kind (statement arities rounds depth) budget before)
        (before.reverse ++ nodes) used (stop :: rest)
  | .block nodes, used => ∀ rounds depth rest, used.length ≤ rounds →
    Accepts (block arities rounds depth) nodes used rest
  | .body dangling nodes, used => ∀ rounds depth rest, used.length ≤ rounds →
    Follows dangling rest → Accepts (body arities rounds depth) nodes used rest
  | .parameters names, used => ∀ budget before stop rest, used.length < budget →
    stop.kind = .rightParen →
      Accepts (upTo stop.kind parameter budget before) (before.reverse ++ names) used (stop :: rest)

/-- At depth zero every expression is too deep; above it the first token decides. -/
theorem expression_accepts {node : Node}
    (h : ∀ depth rest, Accepts (expression arities (depth + 1)) node used rest) :
    PhraseAccepted arities (.expression node) used := by
  intro depth rest
  cases depth with
  | zero => exact .tooDeep
  | succ depth => exact h depth rest

/-- At depth zero every statement is too deep; above it the first token decides. -/
theorem statement_accepts {dangling : Bool} {node : Node}
    (h : ∀ rounds depth rest, used.length ≤ rounds → Follows dangling rest →
      Accepts (statement arities rounds (depth + 1)) node used rest) :
    PhraseAccepted arities (.statement dangling node) used := by
  intro rounds depth rest hr hf
  cases depth with
  | zero => exact .tooDeep
  | succ depth => exact h rounds depth rest hr hf

/-- What follows the word of a statement is too deep at depth zero. -/
theorem statement_word_accepts {dangling : Bool} {node : Node} {parser : Nat → Nat → ParseM Node}
    (he : ∀ rounds depth rest, statement arities rounds (depth + 1) (used ++ rest) =
      parser rounds depth (used ++ rest))
    (hz : ∀ rounds, parser rounds 0 = throw .tooDeep)
    (h : ∀ rounds depth rest, used.length ≤ rounds → Follows dangling rest →
      Accepts (parser rounds (depth + 1)) node used rest) :
    PhraseAccepted arities (.statement dangling node) used := by
  refine statement_accepts fun rounds depth rest hr hf => .congr (he rounds depth rest) ?_
  cases depth with
  | zero =>
    rw [hz]
    exact .tooDeep
  | succ depth => exact h rounds depth rest hr hf

/-- An operator or a builtin with two operands. -/
theorem expression_two_accepts {f : Node → Node → Node} {left right : Node}
    (he : ∀ depth rest, expression arities (depth + 1) (token :: rest) =
      (do
        let left ← expression arities depth
        let right ← expression arities depth
        return f left right : ParseM Node) rest)
    (hl : PhraseAccepted arities (.expression left) first)
    (hr : PhraseAccepted arities (.expression right) second) :
    PhraseAccepted arities (.expression (f left right)) (token :: (first ++ second)) :=
  expression_accepts fun depth rest => .step (he depth _)
    ((hl depth (second ++ rest)).bind (hr depth rest).map)

/-- A builtin with one operand. -/
theorem expression_one_accepts {f : Node → Node} {operand : Node}
    (he : ∀ depth rest, expression arities (depth + 1) (token :: rest) =
      (do
        let operand ← expression arities depth
        return f operand : ParseM Node) rest)
    (h : PhraseAccepted arities (.expression operand) used) :
    PhraseAccepted arities (.expression (f operand)) (token :: used) :=
  expression_accepts fun depth rest => .step (he depth _) (h depth rest).map

/-- An expression that is one token. -/
theorem expression_token_accepts {node : Node}
    (he : ∀ depth rest, expression arities (depth + 1) (token :: rest) =
      (pure node : ParseM Node) rest) :
    PhraseAccepted arities (.expression node) [token] :=
  expression_accepts fun depth _ => .step (he depth _) .pure

/-- The arguments of a call are read one level below it. -/
theorem expression_call_accepts {args : List Node} (hk : token.kind = .identifier)
    (ha : arities.find? token.lexeme = some args.length)
    (h : PhraseAccepted arities (.expressions args) used) :
    PhraseAccepted arities (.expression (.call token.lexeme args)) (token :: used) := by
  refine expression_accepts fun depth rest => .step (expression_call hk ha) (.map ?_)
  cases depth with
  | zero => exact .tooDeep
  | succ depth => exact h depth [] rest

theorem statement_let_accepts {word name sign : Token} {value : Node} (hw : word.kind = .letWord)
    (hn : name.kind = .identifier) (hs : sign.kind = .assign)
    (h : PhraseAccepted arities (.expression value) used) :
    PhraseAccepted arities (.statement false (.bind name.lexeme value))
      (word :: name :: sign :: used) :=
  statement_word_accepts (fun _ _ _ => statement_let hw) (fun _ => rfl) fun _ depth rest _ _ =>
    .consume hw (.consume hn (.consume hs (h depth rest).map))

theorem statement_print_accepts {word : Token} {value : Node} (hw : word.kind ∈ Kind.prints)
    (h : PhraseAccepted arities (.expression value) used) :
    PhraseAccepted arities (.statement false (.print value word.lexeme)) (word :: used) :=
  statement_word_accepts (fun _ _ _ => statement_print hw) (fun _ => rfl) fun _ depth rest _ _ =>
    .step printing_succ (h depth rest).map

theorem statement_return_accepts {word : Token} {value : Node} (hw : word.kind = .returnWord)
    (h : PhraseAccepted arities (.expression value) used) :
    PhraseAccepted arities (.statement false (.ret value)) (word :: used) :=
  statement_accepts fun _ depth rest _ _ => .step (statement_return hw) (h depth rest).map

/-- After a dangling `if` the parser looks for an `else` and finds none. -/
theorem statement_ifThen_accepts {word : Token} {cond : Node} {inner : List Node} {dangling : Bool}
    (hw : word.kind = .ifWord) (hc : PhraseAccepted arities (.expression cond) first)
    (hb : PhraseAccepted arities (.body dangling inner) second) :
    PhraseAccepted arities (.statement true (.ifThen cond inner)) (word :: (first ++ second)) := by
  refine statement_word_accepts (fun _ _ _ => statement_if hw) (fun _ => rfl) ?_
  intro rounds depth rest hr hf
  obtain ⟨next, more, he, hne⟩ := hf rfl
  simp only [List.length_cons, List.length_append] at hr
  have hbody := hb rounds depth rest (by omega) fun _ => ⟨next, more, he, hne⟩
  refine .consume hw ((hc depth (second ++ rest)).bind ?_)
  rw [← List.append_nil second]
  refine .bind hbody (.peek he ?_)
  rw [if_neg hne]
  exact .pure

theorem statement_ifElse_accepts {word mark : Token} {cond : Node} {inner other : List Node}
    {dangling : Bool} (hw : word.kind = .ifWord)
    (hc : PhraseAccepted arities (.expression cond) first)
    (hb : PhraseAccepted arities (.body false inner) second) (hm : mark.kind = .elseWord)
    (ho : PhraseAccepted arities (.body dangling other) third) :
    PhraseAccepted arities (.statement dangling (.ifElse cond inner other))
      (word :: (first ++ (second ++ mark :: third))) := by
  refine statement_word_accepts (fun _ _ _ => statement_if hw) (fun _ => rfl) ?_
  intro rounds depth rest hr hf
  simp only [List.length_cons, List.length_append] at hr
  have hbody := hb rounds depth (mark :: third ++ rest) (by omega) .closed
  have hother := ho rounds depth rest (by omega) hf
  have hcond := hc depth (second ++ mark :: third ++ rest)
  refine .consume hw (hcond.bind (hbody.bind (.peek rfl ?_)))
  rw [if_pos hm]
  exact .step rfl hother.map

theorem statement_while_accepts {word : Token} {cond : Node} {inner : List Node} {dangling : Bool}
    (hw : word.kind = .whileWord) (hc : PhraseAccepted arities (.expression cond) first)
    (hb : PhraseAccepted arities (.body dangling inner) second) :
    PhraseAccepted arities (.statement dangling (.whileLoop cond inner))
      (word :: (first ++ second)) := by
  refine statement_word_accepts (fun _ _ _ => statement_while hw) (fun _ => rfl) ?_
  intro rounds depth rest hr hf
  simp only [List.length_cons, List.length_append] at hr
  have hbody := hb rounds depth rest (by omega) hf
  exact .consume hw ((hc depth (second ++ rest)).bind hbody.map)

theorem statement_for_accepts {word name sign : Token} {start stop : Node} {inner : List Node}
    {dangling : Bool} (hw : word.kind = .forWord) (hn : name.kind = .identifier)
    (hs : sign.kind = .assign) (hl : PhraseAccepted arities (.expression start) first)
    (hr : PhraseAccepted arities (.expression stop) second)
    (hb : PhraseAccepted arities (.body dangling inner) third) :
    PhraseAccepted arities (.statement dangling (.forLoop name.lexeme start stop inner))
      (word :: name :: sign :: (first ++ (second ++ third))) := by
  refine statement_word_accepts (fun _ _ _ => statement_for hw) (fun _ => rfl) ?_
  intro rounds depth rest hlen hf
  simp only [List.length_cons, List.length_append] at hlen
  have hbody := hb rounds depth rest (by omega) hf
  refine .consume hw (.consume hn (.consume hs ?_))
  exact (hl depth (second ++ third ++ rest)).bind ((hr depth (third ++ rest)).bind hbody.map)

theorem statement_function_accepts {word name left right : Token} {params : List String}
    {inner : List Node} (hw : word.kind = .functionWord) (hn : name.kind = .identifier)
    (hl : left.kind = .leftParen) (hp : PhraseAccepted arities (.parameters params) first)
    (hr : right.kind = .rightParen) (hb : PhraseAccepted arities (.block inner) second) :
    PhraseAccepted arities (.statement false (.function name.lexeme params inner))
      (word :: name :: left :: (first ++ right :: second)) := by
  refine statement_word_accepts (fun _ _ _ => statement_function hw) (fun _ => rfl) ?_
  intro rounds depth rest hlen _
  simp only [List.length_cons, List.length_append] at hlen
  have hparams := hp rounds [] right (second ++ rest) (by omega) hr
  rw [hr] at hparams
  have hblock := hb rounds depth rest (by omega)
  exact .consume hw (.consume hn (.consume hl (hparams.bind (.consume hr hblock.map))))

/-- A pause or a wipe is read as an expression. -/
theorem statement_action_accepts {node : Node} (hd : Derives arities (.expression node) used)
    (ha : node.isAction = true) (h : PhraseAccepted arities (.expression node) used) :
    PhraseAccepted arities (.statement false node) used := by
  refine statement_accepts fun rounds depth rest _ _ => ?_
  obtain ⟨token, more, rfl, -⟩ := hd.opens
  have hk : token.kind = .pause ∨ token.kind = .wipe := by
    simpa [ha] using hd.isAction_eq
  exact .congr (statement_action hk) (h depth rest)

theorem statement_implicit_accepts {node : Node} (hd : Derives arities (.expression node) used)
    (ha : node.isAction = false) (h : PhraseAccepted arities (.expression node) used) :
    PhraseAccepted arities (.statement false (.print node "implicit")) used := by
  refine statement_accepts fun rounds depth rest _ _ => ?_
  obtain ⟨token, more, rfl, ho⟩ := hd.opens
  have hk : ¬ (token.kind = .pause ∨ token.kind = .wipe) := by
    simpa [ha] using hd.isAction_eq
  rw [not_or] at hk
  exact .congr (statement_implicit (Kind.not_opensOther ho) hk.1 hk.2) (h depth rest).map

/-- What comes after a statement of a list is another statement or the stop, never an `else`. -/
theorem follows_statements {nodes : List Node} {dangling : Bool} {stop : Token}
    (h : Derives arities (.statements nodes) used)
    (hs : stop.kind = .rightBrace ∨ stop.kind = .ending) :
    Follows dangling (used ++ stop :: rest) := by
  intro _
  cases h with
  | noStatement =>
    refine ⟨stop, rest, rfl, ?_⟩
    rcases hs with hs | hs <;> simp [hs]
  | moreStatements h hm =>
    obtain ⟨next, more, rfl, ho⟩ := h.opens
    refine ⟨next, _, rfl, ?_⟩
    intro he
    rw [he] at ho
    rcases ho with ho | ho <;> cases ho

theorem statements_cons_accepts {node : Node} {nodes : List Node} {dangling : Bool}
    (hd : Derives arities (.statement dangling node) first)
    (hds : Derives arities (.statements nodes) second)
    (h : PhraseAccepted arities (.statement dangling node) first)
    (hs : PhraseAccepted arities (.statements nodes) second) :
    PhraseAccepted arities (.statements (node :: nodes)) (first ++ second) := by
  intro rounds depth budget before stop rest hr hb hstop
  obtain ⟨token, more, rfl, ho⟩ := hd.opens
  rw [List.length_append] at hr hb
  have hne : token.kind ≠ stop.kind := by
    intro he
    rw [he] at ho
    rcases hstop with hstop | hstop <;> rw [hstop] at ho <;> rcases ho with ho | ho <;> cases ho
  cases budget with
  | zero => omega
  | succ budget =>
    have hitem := h rounds depth (second ++ stop :: rest) (by omega) (follows_statements hds hstop)
    have hmore := hs rounds depth budget (node :: before) stop rest (by omega)
      (by rw [List.length_cons] at hb; omega) hstop
    exact .upTo_item rfl hne hitem hmore

theorem block_accepts {left right : Token} {nodes : List Node} (hl : left.kind = .leftBrace)
    (h : PhraseAccepted arities (.statements nodes) used) (hr : right.kind = .rightBrace) :
    PhraseAccepted arities (.block nodes) (left :: (used ++ [right])) := by
  intro rounds depth rest hlen
  simp only [List.length_cons, List.length_append, List.length_nil] at hlen
  cases depth with
  | zero => exact .tooDeep
  | succ depth =>
    have hitems := h rounds depth rounds [] right rest (by omega) (by omega) (.inl hr)
    rw [hr] at hitems
    exact .consume hl (hitems.bind (.consume hr .pure))

theorem body_block_accepts {nodes : List Node} (hd : Derives arities (.block nodes) used)
    (h : PhraseAccepted arities (.block nodes) used) :
    PhraseAccepted arities (.body false nodes) used := by
  intro rounds depth rest hr _
  obtain ⟨token, more, rfl, hk⟩ := hd.opens
  cases depth with
  | zero => exact .tooDeep
  | succ depth =>
    refine .peek rfl ?_
    rw [if_pos hk]
    exact h rounds depth rest hr

theorem body_single_accepts {node : Node} {dangling : Bool}
    (hd : Derives arities (.statement dangling node) used)
    (h : PhraseAccepted arities (.statement dangling node) used) :
    PhraseAccepted arities (.body dangling [node]) used := by
  intro rounds depth rest hr hf
  obtain ⟨token, more, rfl, ho⟩ := hd.opens
  have hk : token.kind ≠ .leftBrace := by
    intro he
    rw [he] at ho
    rcases ho with ho | ho <;> cases ho
  cases depth with
  | zero => exact .tooDeep
  | succ depth =>
    refine .peek rfl ?_
    rw [if_neg hk]
    exact (h rounds depth rest hr hf).map

/-- What comes after a parameter is another one or the parenthesis, never a second comma. -/
theorem parameters_cons_accepts {name : Token} {names : List String} {comma : List Token}
    (hn : name.kind = .identifier)
    (hc : comma = [] ∨ ∃ token, token.kind = .comma ∧ comma = [token])
    (hd : Derives arities (.parameters names) used)
    (h : PhraseAccepted arities (.parameters names) used) :
    PhraseAccepted arities (.parameters (name.lexeme :: names)) (name :: comma ++ used) := by
  intro budget before stop rest hb hs
  have hnext : ∃ next more, used ++ stop :: rest = next :: more ∧ next.kind ≠ .comma := by
    cases hd with
    | noParameter => exact ⟨stop, rest, rfl, by simp [hs]⟩
    | parameter hk | parameterComma hk => exact ⟨_, _, rfl, by simp [hk]⟩
  have hitem : Accepts parameter name.lexeme (name :: comma) (used ++ stop :: rest) := by
    refine .consume hn ?_
    rcases hc with rfl | ⟨token, hk, rfl⟩
    · obtain ⟨next, more, he, hne⟩ := hnext
      refine .peek he ?_
      rw [if_neg hne]
      exact .pure
    · refine .peek rfl ?_
      rw [if_pos hk]
      exact .step rfl .pure
  cases budget with
  | zero => omega
  | succ budget =>
    simp only [List.length_append, List.length_cons] at hb
    have hmore := h budget (name.lexeme :: before) stop rest (by omega) hs
    exact .upTo_item rfl (by simp [hn, hs]) hitem hmore

end Phrases

/-- Every derived phrase is accepted. The induction is on the derivation. -/
theorem accepted_of_derives {arities : Arities} {phrase : Phrase} {used : List Token}
    (h : Derives arities phrase used) : PhraseAccepted arities phrase used := by
  induction h with
  | unary hk _ ih => exact expression_one_accepts (fun _ _ => expression_unary hk) ih
  | comparison hk _ _ ihl ihr =>
    exact expression_two_accepts (fun _ _ => expression_comparison hk) ihl ihr
  | math hk _ _ ihl ihr => exact expression_two_accepts (fun _ _ => expression_math hk) ihl ihr
  | call hk ha _ ih => exact expression_call_accepts hk ha ih
  | lookup hk ha => exact expression_token_accepts fun _ _ => expression_lookup hk ha
  | number hk hv => exact expression_token_accepts fun _ _ => expression_number hk hv
  | string hk => exact expression_token_accepts fun _ _ => expression_string hk
  | read hk => exact expression_token_accepts fun _ _ => expression_read hk
  | pause hk _ ih => exact expression_one_accepts (fun _ _ => expression_pause hk) ih
  | wipe hk => exact expression_token_accepts fun _ _ => expression_wipe hk
  | noExpression =>
    intro depth before rest
    rw [List.append_nil]
    exact .pure
  | @moreExpressions node nodes first second _ _ ih ihm =>
    intro depth before rest
    have hmore := ihm depth (node :: before) rest
    rw [List.reverse_cons, List.append_assoc] at hmore
    exact .bind (ih depth (second ++ rest)) hmore
  | bind hw hn hs _ ih => exact statement_let_accepts hw hn hs ih
  | print hw _ ih => exact statement_print_accepts hw ih
  | ifThen hw _ _ ihc ihb => exact statement_ifThen_accepts hw ihc ihb
  | ifElse hw _ _ hm _ ihc ihb iho => exact statement_ifElse_accepts hw ihc ihb hm iho
  | whileLoop hw _ _ ihc ihb => exact statement_while_accepts hw ihc ihb
  | forLoop hw hn hs _ _ _ ihl ihr ihb => exact statement_for_accepts hw hn hs ihl ihr ihb
  | function hw hn hl _ hr _ ihp ihb => exact statement_function_accepts hw hn hl ihp hr ihb
  | ret hw _ ih => exact statement_return_accepts hw ih
  | action h ha ih => exact statement_action_accepts h ha ih
  | implicit h ha ih => exact statement_implicit_accepts h ha ih
  | noStatement =>
    intro rounds depth budget before stop rest _ hb _
    cases budget with
    | zero => exact absurd hb (Nat.not_lt_zero _)
    | succ budget => exact .upTo_stop
  | moreStatements h hm ih ihm => exact statements_cons_accepts h hm ih ihm
  | block hl _ hr ih => exact block_accepts hl ih hr
  | braces h ih => exact body_block_accepts h ih
  | single h ih => exact body_single_accepts h ih
  | noParameter =>
    intro budget before stop rest hb hs
    cases budget with
    | zero => exact absurd hb (Nat.not_lt_zero _)
    | succ budget => exact .upTo_stop
  | parameter hn h ih => exact parameters_cons_accepts hn (.inl rfl) h ih
  | parameterComma hn hc h ih => exact parameters_cons_accepts hn (.inr ⟨_, hc, rfl⟩) h ih

end PrefixScript.Parse
