import PrefixScript.Proofs.GrammarCompleteness

/-!
# What was taken before a syntax error can be completed

Up to a syntax error, the tokens that were taken begin a phrase. Each construct that is open there
can be completed: with an expression of one token for each expression that is missing, with empty
braces for a missing body, and with the names and signs that the construct still lacks. The proof
follows the parser as `Reads` does, but it is the failing part of each sequence that is completed
here.
-/
namespace PrefixScript.Parse
variable {arities : Arities}

section Begins
variable {α β : Type} {Q : α → List Token → Prop} {used : List Token}

/-- Some tokens, with more of them behind, are a phrase. -/
def Begins (Q : α → List Token → Prop) (used : List Token) : Prop := ∃ more a, Q a (used ++ more)

/-- What begins a phrase begins the phrases around it. What is missing behind the inner phrase is
put there too. -/
theorem Begins.into {R : β → List Token → Prop} {f : α → β} {context : List Token → List Token}
    {target : List Token} (h : Begins Q used) (last : List Token)
    (hR : ∀ {a whole}, Q a whole → R (f a) (context whole))
    (hc : ∀ more, context (used ++ more) = target ++ (more ++ last)) : Begins R target := by
  obtain ⟨more, a, hq⟩ := h
  exact ⟨more ++ last, f a, hc more ▸ hR hq⟩

def BeginsExpression (arities : Arities) : List Token → Prop :=
  Begins fun node used => Derives arities (.expression node) used

def BeginsArguments (arities : Arities) (count : Nat) : List Token → Prop :=
  Begins fun nodes used => nodes.length = count ∧ Derives arities (.expressions nodes) used

def BeginsStatement (arities : Arities) : List Token → Prop :=
  Begins fun node used => ∃ dangling, Derives arities (.statement dangling node) used

def BeginsStatements (arities : Arities) : List Token → Prop :=
  Begins fun nodes used => Derives arities (.statements nodes) used

def BeginsBlock (arities : Arities) : List Token → Prop :=
  Begins fun nodes used => Derives arities (.block nodes) used

def BeginsBody (arities : Arities) : List Token → Prop :=
  Begins fun nodes used => ∃ dangling, Derives arities (.body dangling nodes) used

def BeginsParameters (arities : Arities) : List Token → Prop :=
  Begins fun names used => Derives arities (.parameters names) used

/-! What stands for missing parts. -/

/-- The expression that stands for any that is missing. -/
def filler : Token := ⟨.read, "read"⟩

def openingBrace : Token := ⟨.leftBrace, "\x7b"⟩

def closingBrace : Token := ⟨.rightBrace, "\x7d"⟩

def anyName : Token := ⟨.identifier, "x"⟩

def assignSign : Token := ⟨.assign, "="⟩

def openingParen : Token := ⟨.leftParen, "("⟩

def closingParen : Token := ⟨.rightParen, ")"⟩

theorem derives_filler : Derives arities (.expression .read) [filler] := .read rfl

/-- Any number of missing expressions can be filled in. -/
theorem exists_fillers (count : Nat) :
    ∃ nodes more, nodes.length = count ∧ Derives arities (.expressions nodes) more := by
  induction count with
  | zero => exact ⟨[], [], rfl, .noExpression⟩
  | succ count ih =>
    obtain ⟨nodes, more, hn, hd⟩ := ih
    exact ⟨.read :: nodes, filler :: more, by simp [hn], .moreExpressions derives_filler hd⟩

theorem derives_emptyBlock : Derives arities (.block []) [openingBrace, closingBrace] :=
  .block rfl .noStatement rfl

theorem derives_emptyBody : Derives arities (.body false []) [openingBrace, closingBrace] :=
  .braces derives_emptyBlock

end Begins

/-! ## Following a parser to a syntax error -/

section Viable
variable {α β : Type} {begins other : List Token → Prop} {deep : List Token → Prop}
  {S : α → List Token → List Token → Prop} {parser : ParseM α} {tokens : List Token}

/-- Where a parser finds a syntax error, the tokens that were taken begin something. -/
def Viable (begins : List Token → Prop) (parser : ParseM α) (tokens : List Token) : Prop :=
  Ends parser tokens (fun _ _ => True) fun failure rest =>
    ∀ fault, failure = .fault fault → ∃ used, tokens = used ++ rest ∧ begins used

theorem Viable.mono (h : Viable begins parser tokens) (hb : ∀ used, begins used → other used) :
    Viable other parser tokens :=
  Ends.mono h (fun _ _ => id) fun _ _ hf fault he =>
    (hf fault he).imp fun used ⟨ht, hu⟩ => ⟨ht, hb used hu⟩

theorem Viable.pure {a : α} : Viable begins (pure a) tokens := trivial

theorem Viable.congr {second : ParseM α} (he : parser tokens = second tokens)
    (h : Viable begins second tokens) : Viable begins parser tokens := by
  unfold Viable Ends at *
  rwa [he]

/-- Nothing has to be said of failures that are no syntax errors. -/
theorem Viable.of_error {failure : Failure} {rest : List Token}
    (he : parser tokens = .error failure rest) (hn : ∀ fault, failure ≠ .fault fault) :
    Viable begins parser tokens := by
  unfold Viable Ends
  rw [he]
  exact fun fault hf => absurd hf (hn fault)

/-- A syntax error at the first token. -/
theorem Viable.refused {failure : Failure} (he : parser tokens = .error failure tokens)
    (hb : begins []) : Viable begins parser tokens := by
  unfold Viable Ends
  rw [he]
  exact fun _ _ => ⟨[], rfl, hb⟩

/-- A syntax error in the first part leaves the second one to be completed, and one in the second
part has the tokens of the first one before it. -/
theorem Viable.bind {next : α → ParseM β} (hr : Reads deep parser S tokens)
    (h : Viable begins parser tokens) (hb : ∀ used, begins used → other used)
    (hn : ∀ a first more, Taken first more tokens → S a first more →
      Viable (fun used => other (first ++ used)) (next a) more) :
    Viable other (parser >>= next) tokens := by
  unfold Viable
  rw [ends_bind]
  refine Ends.mono (Ends.and hr (h.mono hb)) ?_ fun _ _ hf => hf.2
  rintro a more ⟨⟨first, ht, hs⟩, -⟩
  refine Ends.mono (hn a first more ht hs) (fun _ _ => id) ?_
  intro failure rest hf fault he
  obtain ⟨used, hused, ho⟩ := hf fault he
  exact ⟨first ++ used, by rw [ht.1, hused, List.append_assoc], ho⟩

theorem Viable.map {f : α → β} (h : Viable begins parser tokens) :
    Viable begins (do let a ← parser; return f a) tokens := by
  unfold Viable
  rw [ends_bind]
  exact h

theorem Viable.step {token : Token} {rest : List Token} {next : ParseM α}
    (he : parser (token :: rest) = next rest)
    (h : Viable (fun used => begins (token :: used)) next rest) :
    Viable begins parser (token :: rest) := by
  unfold Viable Ends at *
  rw [he]
  split at h
  · trivial
  · intro fault hf
    obtain ⟨used, hused, hb⟩ := h fault hf
    exact ⟨token :: used, by rw [hused, List.cons_append], hb⟩

/-- A parser that finds everything too deep has no syntax error. -/
theorem Viable.tooDeep : Viable begins (throw .tooDeep : ParseM α) tokens :=
  .of_error rfl (by simp)

theorem viable_peek {next : Token → ParseM α}
    (h : ∀ token rest, tokens = token :: rest → Viable begins (next token) tokens) :
    Viable begins (peek >>= next) tokens := by
  cases tokens with
  | nil => exact .of_error rfl (by simp)
  | cons token rest => exact h token rest rfl

/-- Where a token of some kind is missing, what was taken before has to begin something. -/
theorem viable_consume {kind : Kind} {next : Token → ParseM α} (hb : begins [])
    (h : ∀ token rest, tokens = token :: rest → token.kind = kind →
      Viable (fun used => begins (token :: used)) (next token) rest) :
    Viable begins (consume kind >>= next) tokens := by
  cases tokens with
  | nil => exact .of_error rfl (by simp)
  | cons token rest =>
    by_cases ht : token.kind = kind
    · have he : (consume kind >>= next) (token :: rest) = next token rest :=
        bind_of_ok (consume_of_kind ht)
      exact .step he (h token rest rfl ht)
    · exact .refused (bind_of_error (consume_of_ne ht)) hb

/-- A syntax error in an item of a list has the items before it, and the other ones are missing. -/
theorem viable_repeated {Q : α → List Token → Prop} {beginsList : Nat → List Token → Prop}
    (hitem : ∀ tokens, Reads deep parser (fun a used _ => Q a used) tokens)
    (h : ∀ tokens, Viable begins parser tokens)
    (hfirst : ∀ {count used}, begins used → beginsList (count + 1) used)
    (hmore : ∀ {a first count used}, Q a first → beginsList count used →
      beginsList (count + 1) (first ++ used))
    (count : Nat) (before : List α) (tokens : List Token) :
    Viable (beginsList count) (repeated parser count before) tokens := by
  induction count generalizing before tokens with
  | zero => exact .pure
  | succ count ih =>
    refine .bind (hitem tokens) (h tokens) (fun _ => hfirst) fun a first more _ ha => ?_
    exact (ih (a :: before) more).mono fun used => hmore ha

/-- A syntax error in an item of a list has the items before it, and the list may end with it. -/
theorem viable_upTo {Q : α → List Token → Prop} {beginsList : List Token → Prop} (stop : Kind)
    (limit : Nat)
    (hitem : ∀ tokens, tokens.length ≤ limit → Reads deep parser (fun a used _ => Q a used) tokens)
    (h : ∀ tokens, tokens.length ≤ limit → Viable begins parser tokens)
    (hfirst : ∀ {used}, begins used → beginsList used)
    (hmore : ∀ {a first used}, Q a first → beginsList used → beginsList (first ++ used))
    (rounds : Nat) (before : List α) (tokens : List Token) (hl : tokens.length ≤ limit) :
    Viable beginsList (upTo stop parser rounds before) tokens := by
  induction rounds generalizing before tokens with
  | zero => exact .of_error rfl (by simp)
  | succ rounds ih =>
    refine viable_peek fun token rest _ => ?_
    split
    · exact .pure
    · refine .bind (hitem tokens hl) (h tokens hl) (fun _ => hfirst) fun a first more ht ha => ?_
      exact (ih (a :: before) more (Nat.le_trans ht.length_le hl)).mono fun used => hmore ha

end Viable

/-! ## Expressions -/

section Expressions
variable {depth : Nat} {token : Token} {rest : List Token}

/-- Expressions of a depth can be completed. -/
def ExpressionsViable (arities : Arities) (depth : Nat) : Prop :=
  ∀ tokens, Viable (BeginsExpression arities) (expression arities depth) tokens

theorem arguments_viable (h : ∀ lower < depth, ExpressionsViable arities lower) (count : Nat)
    (tokens : List Token) :
    Viable (BeginsArguments arities count) (arguments arities depth count) tokens := by
  cases depth with
  | zero => exact .tooDeep
  | succ depth =>
    have hfirst {count used} (hb : BeginsExpression arities used) :
        BeginsArguments arities (count + 1) used := by
      obtain ⟨nodes, more, rfl, hd⟩ := @exists_fillers arities count
      exact hb.into more (fun h => ⟨rfl, .moreExpressions h hd⟩) (by simp)
    have hmore {node first count used} (hn : Derives arities (.expression node) first)
        (hb : BeginsArguments arities count used) :
        BeginsArguments arities (count + 1) (first ++ used) :=
      hb.into [] (fun h => ⟨by rw [List.length_cons, h.1], .moreExpressions hn h.2⟩) (by simp)
    exact viable_repeated (expression_reads depth) (h depth depth.lt_succ_self) hfirst hmore count
      [] tokens

/-- A builtin with one operand. -/
theorem expression_one_viable {f : Node → Node} (h : ExpressionsViable arities depth)
    (he : expression arities (depth + 1) (token :: rest) =
      (do
        let operand ← expression arities depth
        return f operand : ParseM Node) rest)
    (hf : ∀ {operand used}, Derives arities (.expression operand) used →
      Derives arities (.expression (f operand)) (token :: used)) :
    Viable (BeginsExpression arities) (expression arities (depth + 1)) (token :: rest) :=
  .step he (.map ((h rest).mono fun _ hb => hb.into [] hf (by simp)))

/-- An operator with two operands. -/
theorem expression_two_viable {f : Node → Node → Node} (h : ExpressionsViable arities depth)
    (he : expression arities (depth + 1) (token :: rest) =
      (do
        let left ← expression arities depth
        let right ← expression arities depth
        return f left right : ParseM Node) rest)
    (hf : ∀ {left right first second}, Derives arities (.expression left) first →
      Derives arities (.expression right) second →
      Derives arities (.expression (f left right)) (token :: (first ++ second))) :
    Viable (BeginsExpression arities) (expression arities (depth + 1)) (token :: rest) := by
  refine .step he (.bind (expression_reads depth rest) (h rest) (fun used hb => ?_)
    fun left first more _ hl => .map ((h more).mono fun used hb => ?_))
  · exact hb.into [filler] (fun ho => hf ho derives_filler) (by simp)
  · exact hb.into [] (fun ho => hf hl ho) (by simp)

/-- Expressions can be completed. The induction is on the depth. -/
theorem expression_viable (depth : Nat) : ExpressionsViable arities depth := by
  induction depth using Nat.strongRecOn with
  | ind depth ih =>
    intro tokens
    cases depth with
    | zero => exact .tooDeep
    | succ depth =>
      have inner := ih depth depth.lt_succ_self
      cases tokens with
      | nil => exact .of_error rfl (by simp)
      | cons token rest =>
        cases ho : token.kind.opensExpression with
        | false => exact .refused (expression_unexpected ho) ⟨[filler], .read, derives_filler⟩
        | true =>
          rcases Kind.opensExpression_cases ho with hk | hk | hk | hk | hk | hk | hk | hk | hk
          · exact expression_one_viable inner (expression_unary hk) (.unary hk)
          · exact expression_two_viable inner (expression_comparison hk) (.comparison hk)
          · exact expression_two_viable inner (expression_math hk) (.math hk)
          · cases ha : arities.find? token.lexeme with
            | none => exact .step (expression_lookup hk ha) .pure
            | some count =>
              refine .step (expression_call hk ha) (.map ?_)
              have below (lower : Nat) (hl : lower < depth) : ExpressionsViable arities lower :=
                ih lower (Nat.lt_succ_of_lt hl)
              refine (arguments_viable below count rest).mono fun used hb => ?_
              exact hb.into [] (fun h => .call hk (by rw [ha, h.1]) h.2) (by simp)
          · cases hv : Decimal.writtenValue? token.lexeme.toList with
            | some value => exact .step (expression_number hk hv) .pure
            | none => exact .of_error (expression_noNumber hk hv) (by simp)
          · exact .step (expression_string hk) .pure
          · exact .step (expression_read hk) .pure
          · exact expression_one_viable inner (expression_pause hk) (.pause hk)
          · exact .step (expression_wipe hk) .pure

end Expressions

/-! ## Statements -/

/-- Statements of a depth can be completed, as far as no more tokens are left than the rounds. -/
def StatementsViable (arities : Arities) (rounds depth : Nat) : Prop :=
  ∀ tokens, tokens.length ≤ rounds →
    Viable (BeginsStatement arities) (statement arities rounds depth) tokens

section Lists
variable {depth rounds : Nat} {tokens : List Token}

theorem parameter_viable : Viable (BeginsParameters arities) parameter tokens := by
  refine viable_consume ⟨[anyName], [anyName.lexeme], .parameter rfl .noParameter⟩ ?_
  intro token rest _ _
  refine viable_peek fun next more _ => ?_
  split <;> trivial

theorem parameters_viable (h : tokens.length ≤ rounds) :
    Viable (BeginsParameters arities) (upTo .rightParen parameter rounds []) tokens := by
  have hmore {name first used} (hf : IsParameter name first) (hb : BeginsParameters arities used) :
      BeginsParameters arities (first ++ used) := by
    obtain ⟨token, hk, rfl, rfl | ⟨comma, hc, rfl⟩⟩ := hf
    · exact hb.into [] (fun h => .parameter hk h) (by simp)
    · exact hb.into [] (fun h => .parameterComma hk hc h) (by simp)
  exact viable_upTo .rightParen rounds (fun _ _ => parameter_reads) (fun _ _ => parameter_viable) id
    hmore rounds [] tokens h

theorem statements_viable {stop : Kind} (hs : StatementsViable arities rounds depth)
    (h : tokens.length ≤ rounds) :
    Viable (BeginsStatements arities) (upTo stop (statement arities rounds depth) rounds [])
      tokens := by
  have hitem (tokens : List Token) (hl : tokens.length ≤ rounds) :
      Reads (Short 2 depth) (statement arities rounds depth)
        (fun node used _ => ∃ dangling, Derives arities (.statement dangling node) used) tokens :=
    (statement_reads rounds depth tokens hl).mono (fun _ => id)
      fun _ _ _ _ ⟨dangling, hd, _⟩ => ⟨dangling, hd⟩
  have hfirst {used} (hb : BeginsStatement arities used) : BeginsStatements arities used :=
    hb.into [] (fun ⟨_, h⟩ => .moreStatements h .noStatement) (by simp)
  have hmore {node first used} (hn : ∃ dangling, Derives arities (.statement dangling node) first)
      (hb : BeginsStatements arities used) : BeginsStatements arities (first ++ used) := by
    obtain ⟨dangling, hd⟩ := hn
    exact hb.into [] (fun h => .moreStatements hd h) (by simp)
  exact viable_upTo stop rounds hitem hs hfirst hmore rounds [] tokens h

/-- The statements of all lower depths are read as they are. -/
theorem statement_reads_below (rounds depth : Nat) :
    ∀ lower < depth, StatementReads arities rounds lower :=
  fun lower _ => statement_reads rounds lower

variable (hs : ∀ lower < depth, StatementsViable arities rounds lower)
include hs

theorem block_viable (h : tokens.length ≤ rounds) :
    Viable (BeginsBlock arities) (block arities rounds depth) tokens := by
  cases depth with
  | zero => exact .tooDeep
  | succ depth =>
    refine viable_consume ⟨_, [], derives_emptyBlock⟩ fun left inner he hl => ?_
    have hi : inner.length ≤ rounds := by
      rw [he, List.length_cons] at h
      omega
    refine .bind (statements_reads (statement_reads rounds depth) hi)
      (statements_viable (hs depth depth.lt_succ_self) hi) (fun used hb => ?_) ?_
    · have hr : closingBrace.kind = .rightBrace := rfl
      exact hb.into [closingBrace] (fun h => .block hl h hr) (by simp)
    · rintro nodes used _ - ⟨-, right, rest, rfl, hr⟩
      exact .step (bind_of_ok (consume_of_kind hr)) .pure

theorem body_viable (h : tokens.length ≤ rounds) :
    Viable (BeginsBody arities) (body arities rounds depth) tokens := by
  cases depth with
  | zero => exact .tooDeep
  | succ depth =>
    refine viable_peek fun token rest _ => ?_
    split
    · have hblock := block_viable (fun lower hl => hs lower (Nat.lt_succ_of_lt hl)) h
      exact hblock.mono fun used hb => hb.into [] (fun h => ⟨false, .braces h⟩) (by simp)
    · refine .map ((hs depth depth.lt_succ_self tokens h).mono fun used hb => ?_)
      exact hb.into [] (fun ⟨dangling, h⟩ => ⟨dangling, .single h⟩) (by simp)

end Lists

section Words
variable {depth rounds : Nat} {token : Token} {rest : List Token}

theorem binding_viable (hk : token.kind = .letWord) :
    Viable (BeginsStatement arities) (binding arities depth) (token :: rest) := by
  cases depth with
  | zero => exact .tooDeep
  | succ depth =>
    refine .step (bind_of_ok (consume_of_kind hk)) ?_
    refine viable_consume ⟨[anyName, assignSign, filler], _,
      ⟨false, .bind hk rfl rfl derives_filler⟩⟩ fun name more _ hn => ?_
    refine viable_consume ⟨[assignSign, filler], _,
      ⟨false, .bind hk hn rfl derives_filler⟩⟩ fun sign inner _ hs => ?_
    refine .map ((expression_viable depth inner).mono fun used hb => ?_)
    exact hb.into [] (fun h => ⟨false, .bind hk hn hs h⟩) (by simp)

theorem printing_viable (hk : token.kind ∈ Kind.prints) :
    Viable (BeginsStatement arities) (printing arities depth) (token :: rest) := by
  cases depth with
  | zero => exact .tooDeep
  | succ depth =>
    refine .step printing_succ (.map ((expression_viable depth rest).mono fun used hb => ?_))
    exact hb.into [] (fun h => ⟨false, .print hk h⟩) (by simp)

variable (hs : ∀ lower < depth, StatementsViable arities rounds lower)
include hs

theorem conditional_viable (hk : token.kind = .ifWord) (hr : rest.length ≤ rounds) :
    Viable (BeginsStatement arities) (conditional arities rounds depth) (token :: rest) := by
  cases depth with
  | zero => exact .tooDeep
  | succ depth =>
    have below (lower : Nat) (hl : lower < depth) : StatementsViable arities rounds lower :=
      hs lower (Nat.lt_succ_of_lt hl)
    refine .step (bind_of_ok (consume_of_kind hk)) ?_
    refine .bind (expression_reads depth rest) (expression_viable depth rest)
      (fun used hb => ?_) ?_
    · exact hb.into [openingBrace, closingBrace]
        (fun h => ⟨true, .ifThen hk h derives_emptyBody⟩) (by simp)
    intro cond first more hm hc
    have hmore := Nat.le_trans hm.length_le hr
    refine .bind (body_reads (statement_reads_below rounds depth) hmore) (body_viable below hmore)
      (fun used hb => ?_) ?_
    · exact hb.into [] (Exists.elim · fun _ h => ⟨true, .ifThen hk hc h⟩) (by simp)
    rintro body second after ha ⟨dangling, hb, hf⟩
    refine viable_peek fun next left he => ?_
    subst he
    split
    · rename_i hn
      -- An `else` is here, so the first body was closed, and only the second one may be open.
      obtain rfl := hf.eq_false hn
      have hleft : left.length ≤ rounds := by
        have hlen := Nat.le_trans ha.length_le hmore
        rw [List.length_cons] at hlen
        omega
      refine .step rfl (.map ((body_viable below hleft).mono fun used hb' => ?_))
      exact hb'.into [] (Exists.imp fun _ h => .ifElse hk hc hb hn h) (by simp)
    · exact .pure

theorem whileLoop_viable (hk : token.kind = .whileWord) (hr : rest.length ≤ rounds) :
    Viable (BeginsStatement arities) (whileLoop arities rounds depth) (token :: rest) := by
  cases depth with
  | zero => exact .tooDeep
  | succ depth =>
    refine .step (bind_of_ok (consume_of_kind hk)) ?_
    refine .bind (expression_reads depth rest) (expression_viable depth rest)
      (fun used hb => ?_) ?_
    · exact hb.into [openingBrace, closingBrace]
        (fun h => ⟨false, .whileLoop hk h derives_emptyBody⟩) (by simp)
    intro cond first more hm hc
    have hbody := body_viable (fun lower hl => hs lower (Nat.lt_succ_of_lt hl))
      (Nat.le_trans hm.length_le hr)
    refine .map (hbody.mono fun used hb => ?_)
    exact hb.into [] (Exists.imp fun _ h => .whileLoop hk hc h) (by simp)

theorem forLoop_viable (hk : token.kind = .forWord) (hr : rest.length ≤ rounds) :
    Viable (BeginsStatement arities) (forLoop arities rounds depth) (token :: rest) := by
  cases depth with
  | zero => exact .tooDeep
  | succ depth =>
    refine .step (bind_of_ok (consume_of_kind hk)) ?_
    refine viable_consume ⟨[anyName, assignSign, filler, filler, openingBrace, closingBrace], _,
      ⟨false, .forLoop hk rfl rfl derives_filler derives_filler derives_emptyBody⟩⟩
      fun name more hname hn => ?_
    refine viable_consume ⟨[assignSign, filler, filler, openingBrace, closingBrace], _,
      ⟨false, .forLoop hk hn rfl derives_filler derives_filler derives_emptyBody⟩⟩
      fun sign inner hsign hg => ?_
    refine .bind (expression_reads depth inner) (expression_viable depth inner)
      (fun used hb => ?_) ?_
    · exact hb.into [filler, openingBrace, closingBrace]
        (fun h => ⟨false, .forLoop hk hn hg h derives_filler derives_emptyBody⟩) (by simp)
    intro start first after ha hl
    refine .bind (expression_reads depth after) (expression_viable depth after)
      (fun used hb => ?_) ?_
    · exact hb.into [openingBrace, closingBrace]
        (fun h => ⟨false, .forLoop hk hn hg hl h derives_emptyBody⟩) (by simp)
    intro stop second last hb hu
    have hlast : last.length ≤ rounds := by
      have hlen := (ha.append hb).length_le
      rw [hname, hsign, List.length_cons, List.length_cons] at hr
      omega
    have hbody := body_viable (fun lower hl => hs lower (Nat.lt_succ_of_lt hl)) hlast
    refine .map (hbody.mono fun used hb => ?_)
    exact hb.into [] (Exists.imp fun _ h => .forLoop hk hn hg hl hu h) (by simp)

theorem declaration_viable (hk : token.kind = .functionWord) (hr : rest.length ≤ rounds) :
    Viable (BeginsStatement arities) (declaration arities rounds depth) (token :: rest) := by
  cases depth with
  | zero => exact .tooDeep
  | succ depth =>
    refine .step (bind_of_ok (consume_of_kind hk)) ?_
    refine viable_consume ⟨[anyName, openingParen, closingParen, openingBrace, closingBrace], _,
      ⟨false, .function hk rfl rfl .noParameter rfl derives_emptyBlock⟩⟩
      fun name more hname hn => ?_
    refine viable_consume ⟨[openingParen, closingParen, openingBrace, closingBrace], _,
      ⟨false, .function hk hn rfl .noParameter rfl derives_emptyBlock⟩⟩
      fun left inner hleft hl => ?_
    have hinner : inner.length ≤ rounds := by
      rw [hname, hleft, List.length_cons, List.length_cons] at hr
      omega
    have hright : closingParen.kind = .rightParen := rfl
    have hreads : Reads (fun _ => False) (upTo .rightParen parameter rounds [])
        (fun names used _ => Derives arities (.parameters names) used) inner :=
      parameters_reads hinner
    have hviable : Viable (BeginsParameters arities) (upTo .rightParen parameter rounds []) inner :=
      parameters_viable hinner
    refine .bind hreads hviable (fun used hb => ?_) ?_
    · exact hb.into [closingParen, openingBrace, closingBrace]
        (fun h => ⟨false, .function hk hn hl h hright derives_emptyBlock⟩) (by simp)
    intro params first after ha hp
    have hended : Derives arities (.parameters params) (first ++ []) := by rwa [List.append_nil]
    refine viable_consume ⟨[closingParen, openingBrace, closingBrace], _,
      ⟨false, .function hk hn hl hended hright derives_emptyBlock⟩⟩ fun right last hlast hg => ?_
    have hlast : last.length ≤ rounds := by
      have hlen := ha.length_le
      rw [hlast, List.length_cons] at hlen
      omega
    have hblock := block_viable (fun lower hl => hs lower (Nat.lt_succ_of_lt hl)) hlast
    refine .map (hblock.mono fun used hb => ?_)
    exact hb.into [] (fun h => ⟨false, .function hk hn hl hp hg h⟩) (by simp)

end Words

section Statements
variable {depth rounds : Nat} {token : Token} {rest : List Token}

/-- An expression that stands alone, as a statement. -/
def alone (node : Node) : Node := if node.isAction then node else .print node "implicit"

theorem derives_alone {node : Node} {used : List Token}
    (h : Derives arities (.expression node) used) :
    Derives arities (.statement false (alone node)) used := by
  unfold alone
  split
  · rename_i ha
    exact .action h ha
  · rename_i ha
    exact .implicit h (by simpa using ha)

theorem statement_expression_viable (hk : token.kind.opensOther = false) :
    Viable (BeginsStatement arities) (statement arities rounds (depth + 1)) (token :: rest) := by
  have halone : Viable (BeginsStatement arities) (expression arities depth) (token :: rest) :=
    (expression_viable depth (token :: rest)).mono fun used hb =>
      hb.into [] (fun h => ⟨false, derives_alone h⟩) (by simp)
  by_cases ha : token.kind = .pause ∨ token.kind = .wipe
  · exact .congr (statement_action ha) halone
  · exact .congr (statement_implicit hk (not_or.1 ha).1 (not_or.1 ha).2) (.map halone)

/-- Statements can be completed. The induction is on the depth: inner statements are read at lower
ones. -/
theorem statement_viable (rounds depth : Nat) : StatementsViable arities rounds depth := by
  induction depth using Nat.strongRecOn with
  | ind depth ih =>
    intro tokens hr
    cases depth with
    | zero => exact .tooDeep
    | succ depth =>
      have below (lower : Nat) (hl : lower < depth) : StatementsViable arities rounds lower :=
        ih lower (Nat.lt_succ_of_lt hl)
      cases tokens with
      | nil => exact .of_error rfl (by simp)
      | cons token rest =>
        have hrest : rest.length ≤ rounds := by
          rw [List.length_cons] at hr
          omega
        cases ho : token.kind.opensOther with
        | false => exact statement_expression_viable ho
        | true =>
          rcases Kind.opensOther_cases ho with hk | hk | hk | hk | hk | hk | hk
          · exact .congr (statement_print hk) (printing_viable hk)
          · exact .congr (statement_let hk) (binding_viable hk)
          · exact .congr (statement_if hk) (conditional_viable below hk hrest)
          · exact .congr (statement_while hk) (whileLoop_viable below hk hrest)
          · exact .congr (statement_for hk) (forLoop_viable below hk hrest)
          · exact .congr (statement_function hk) (declaration_viable below hk hrest)
          · refine .step (statement_return hk) (.map ?_)
            refine (expression_viable depth rest).mono fun used hb => ?_
            exact hb.into [] (fun h => ⟨false, .ret hk h⟩) (by simp)

end Statements

/-- The tokens that were taken before a syntax error are the beginning of a program. -/
theorem program_begun {depth : Nat} {fault : Fault} {tokens left : List Token}
    (h : program arities tokens.length depth tokens = .error (.fault fault) left) :
    ∃ used, tokens = used ++ left ∧ BeginsStatements arities used := by
  have hviable : Viable (BeginsStatements arities) (program arities tokens.length depth) tokens :=
    statements_viable (statement_viable tokens.length depth) (Nat.le_refl _)
  exact Ends.of_error hviable h fault rfl

end PrefixScript.Parse
